import XChainIndexer.Slash.Proof

/-! # The header of two votes

The first `||` of a signed text is the end of its header, because the rounds and views of the engines have
no empty segments (`boundary_append`), so the header is read back as it was signed, and two texts with one
header are votes for one slot (`deriveEquivKey_iff`). -/

namespace XChainIndexer.Slash.Sound

open IndexTables Slash.Proof List Option

/-! ### Slots and votes -/

/-- A text of segments between pipes, none of them empty. -/
structure Segmented (t : Text) : Prop where
  ne : t ≠ []
  head : t.head? ≠ some '|'
  last : t.getLast? ≠ some '|'
  chain : t.IsChain fun a b => ¬ (a = '|' ∧ b = '|')

/-- What a validator signs one content for. -/
structure SlotName where
  tag : EngineTag
  roundId : Text
  view : Text
  round_ok : Segmented roundId
  view_ne : view ≠ []
  view_plain : '|' ∉ view

structure Vote where
  slot : SlotName
  content : Text

def SlotName.key (s : SlotName) : Text := equivKey s.tag.text s.roundId s.view

/-- What is signed. -/
def Vote.text (v : Vote) : Text := buildEquivCanonical v.slot.tag.text v.slot.roundId v.slot.view v.content

/-! ### The end of the header -/

variable {t : Text}

theorem boundary_append (hlast : t.getLast? ≠ some '|')
    (hchain : t.IsChain fun a b => ¬ (a = '|' ∧ b = '|')) (content : Text) :
    boundary (t ++ '|' :: '|' :: content) = some (t, content) := by
  induction t with
  | nil => simp [boundary]
  | cons a t ih =>
    cases t with
    | nil =>
      have ha : a ≠ '|' := fun h => hlast (by simp [h])
      simp [boundary, ha]
    | cons b t =>
      rw [isChain_cons_cons] at hchain
      have hrest := ih (by simpa using hlast) hchain.2
      have hab : ¬ ((a = '|' && b = '|') = true) := by simpa using hchain.1
      show boundary (a :: b :: (t ++ '|' :: '|' :: content)) = _
      rw [boundary, if_neg hab]
      exact congrArg (Option.map _) hrest

theorem tag_plain (tag : EngineTag) : '|' ∉ tag.text ∧ tag.text ≠ [] := by
  cases tag <;> decide

theorem ofText_text (tag : EngineTag) : EngineTag.ofText tag.text = some tag := by
  cases tag <;> decide

theorem isChain_of_notMem (h : '|' ∉ t) : t.IsChain fun a b => ¬ (a = '|' ∧ b = '|') := by
  induction t with
  | nil => exact .nil
  | cons a t ih =>
    rw [mem_cons, not_or] at h
    cases t with
    | nil => exact .singleton a
    | cons b t => exact .cons_cons (fun hab => h.1 hab.1.symm) (ih h.2)

variable {s : Text}

theorem isChain_join (hs : s.IsChain fun a b => ¬ (a = '|' ∧ b = '|'))
    (ht : t.IsChain fun a b => ¬ (a = '|' ∧ b = '|')) (hlast : s.getLast? ≠ some '|')
    (hhead : t.head? ≠ some '|') : (s ++ '|' :: t).IsChain fun a b => ¬ (a = '|' ∧ b = '|') := by
  rw [isChain_append]
  refine ⟨hs, ?_, ?_⟩
  · cases t with
    | nil => exact .singleton _
    | cons b t => exact .cons_cons (fun hab => hhead (by simp [hab.2])) ht
  · intro a ha b _ hab
    exact hlast (by rw [← hab.1]; exact ha)

theorem getLast_join (ht : t ≠ []) : (s ++ '|' :: t).getLast? = t.getLast? := by
  rw [getLast?_append_of_ne_nil _ (by simp), getLast?_cons_of_ne_nil ht]

theorem head_join (hs : s ≠ []) : (s ++ '|' :: t).head? = s.head? := by
  rw [head?_append_of_ne_nil _ hs]

theorem Segmented.join (hs : Segmented s) (ht : Segmented t) : Segmented (s ++ '|' :: t) where
  ne := by simp
  head := by rw [head_join hs.ne]; exact hs.head
  last := by rw [getLast_join ht.ne]; exact ht.last
  chain := isChain_join hs.chain ht.chain hs.last ht.head

theorem segmented_of_notMem (hne : t ≠ []) (h : '|' ∉ t) : Segmented t where
  ne := hne
  head := fun hhead => h (mem_of_mem_head? hhead)
  last := fun hlast => h (mem_of_mem_getLast? hlast)
  chain := isChain_of_notMem h

def SlotName.header (s : SlotName) : Text := equivMark ++ s.key

theorem segmented_header (s : SlotName) : Segmented s.header := by
  have htag := segmented_of_notMem (tag_plain s.tag).2 (tag_plain s.tag).1
  have hview := segmented_of_notMem s.view_ne s.view_plain
  have hmark : Segmented "EQUIV".toList := segmented_of_notMem (by decide) (by decide)
  exact hmark.join ((htag.join s.round_ok).join hview)

theorem Vote.text_eq (v : Vote) : v.text = v.slot.header ++ '|' :: '|' :: v.content := by
  simp [Vote.text, buildEquivCanonical, equivPrefix, SlotName.header, SlotName.key]

/-- **The header of a vote** is what stands before its first `||`. -/
theorem boundary_text (v : Vote) : boundary v.text = some (v.slot.header, v.content) := by
  rw [v.text_eq]
  exact boundary_append (segmented_header v.slot).last (segmented_header v.slot).chain v.content

theorem headerOf_text (v : Vote) : headerOf v.text = some v.slot.header := by
  rw [headerOf, boundary_text]
  rfl

section pipe
variable {t : Text} (ht : '|' ∉ t) (rest : Text)
include ht

theorem ne_pipe : ∀ c ∈ t, decide (c ≠ '|') := fun _ hc => decide_eq_true (ne_of_mem_of_not_mem hc ht)

theorem takeWhile_pipe : (t ++ '|' :: rest).takeWhile (· ≠ '|') = t := by
  rw [takeWhile_append_of_pos (ne_pipe ht), takeWhile_cons_of_neg (by simp), append_nil]

theorem dropWhile_pipe : (t ++ '|' :: rest).dropWhile (· ≠ '|') = '|' :: rest := by
  rw [dropWhile_append_of_pos (ne_pipe ht), dropWhile_cons_of_neg (by simp)]

end pipe

theorem splitKey_key (s : SlotName) : splitKey s.key = some (s.tag.text, s.roundId, s.view) := by
  have htag := (tag_plain s.tag).1
  have hview : '|' ∉ s.view.reverse := fun h => s.view_plain (mem_reverse.mp h)
  have hkey : s.key = s.tag.text ++ '|' :: (s.roundId ++ '|' :: s.view) := by
    simp [SlotName.key, equivKey]
  have hreverse : (s.roundId ++ '|' :: s.view).reverse = s.view.reverse ++ '|' :: s.roundId.reverse := by
    simp
  rw [splitKey, hkey, takeWhile_pipe htag, dropWhile_pipe htag, drop_one, tail_cons]
  rw [if_pos (by simp), hreverse, takeWhile_pipe hview, dropWhile_pipe hview, drop_one,
    tail_cons, reverse_reverse, reverse_reverse]

/-! ### Two votes with one header -/

theorem SlotName.eq_of_header {s s' : SlotName} (h : s.header = s'.header) : s = s' := by
  have hkey : s.key = s'.key := append_cancel_left h
  have hsplit := splitKey_key s
  rw [hkey, splitKey_key s', some.injEq, Prod.mk.injEq, Prod.mk.injEq] at hsplit
  obtain ⟨htag, hround, hview⟩ := hsplit
  have htag' : s'.tag = s.tag := some.inj <| by rw [← ofText_text, htag, ofText_text]
  cases s
  subst htag' hround hview
  rfl

variable {v : Vote}

theorem slot_eq_of_prefix {s : SlotName} (h : s.header ++ ['|', '|'] <+: v.text) : v.slot = s := by
  obtain ⟨rest, hrest⟩ := h
  have hboundary := boundary_text v
  rw [← hrest, append_assoc, cons_append, cons_append, boundary_append (segmented_header s).last (segmented_header s).chain, some.injEq,
    Prod.mk.injEq] at hboundary
  exact (SlotName.eq_of_header hboundary.1).symm

/-! ### What a key needs -/

theorem deriveEquivKey_ok {msgA msgB : Text} {k : Key} (h : deriveEquivKey msgA msgB = .ok k) :
    ∃ header tag roundId view, headerOf msgA = some header ∧ header ++ ['|', '|'] <+: msgB ∧
      msgA ≠ msgB ∧ splitKey (header.drop equivMark.length) = some (tag, roundId, view) ∧
      k = ⟨header.drop equivMark.length, tag, roundId, view, msgA.drop (header.length + 2),
        msgB.drop (header.length + 2)⟩ := by
  unfold deriveEquivKey at h
  split at h
  · cases h
  · rename_i header hheader
    dsimp only at h
    split_ifs at h with hprefix hne
    split at h
    · cases h
    · rename_i tag roundId view hsplit
      refine ⟨header, tag, roundId, view, hheader, ?_, hne, hsplit, ?_⟩
      · simpa [ isPrefixOf_iff_prefix] using hprefix
      · rw [← Except.ok.inj h, length_append]
        rfl

theorem content_eq (v : Vote) : v.text.drop (v.slot.header.length + 2) = v.content := by
  rw [v.text_eq]
  simp

/-- What is read of two votes for one slot. -/
def keyOf (v w : Vote) : Key :=
  ⟨v.slot.key, v.slot.tag.text, v.slot.roundId, v.slot.view, v.content, w.content⟩

/-- **The key of two votes.** Two signed votes give a key exactly if they are for one slot and differ in
content, and the key is then that slot with the two contents: a header is read back as it was signed. -/
theorem deriveEquivKey_iff (v w : Vote) (k : Key) : deriveEquivKey v.text w.text = .ok k ↔
    v.slot = w.slot ∧ v.content ≠ w.content ∧ k = keyOf v w := by
  have hdrop : v.slot.header.drop equivMark.length = v.slot.key := drop_left
  constructor
  · intro h
    obtain ⟨header, tag, roundId, view, hheader, hprefix, hne, hsplit, rfl⟩ := deriveEquivKey_ok h
    rw [headerOf_text] at hheader
    obtain ⟨⟩ := hheader
    have hslot := slot_eq_of_prefix hprefix
    rw [hdrop, splitKey_key] at hsplit
    obtain ⟨⟩ := hsplit
    refine ⟨hslot.symm, fun hcontent => hne ?_, ?_⟩
    · rw [v.text_eq, w.text_eq, hslot, hcontent]
    · rw [hdrop, content_eq, ← hslot, content_eq, hslot]
      rfl
  · rintro ⟨hslot, hne, rfl⟩
    have hdiffer : v.text ≠ w.text := by
      rw [v.text_eq, w.text_eq, hslot]
      simpa using hne
    have hprefix : (v.slot.header ++ ['|', '|']).isPrefixOf w.text := by
      rw [w.text_eq, hslot, isPrefixOf_iff_prefix]
      exact ⟨w.content, by simp⟩
    have hcontent := content_eq w
    rw [← hslot] at hcontent
    simp [deriveEquivKey, headerOf_text, hprefix, hdiffer, hdrop, splitKey_key, content_eq, hcontent, keyOf]

end XChainIndexer.Slash.Sound
