import XChainIndexer.Lib.Overlap
import XChainIndexer.Quorum.Tally

/-! # Two count quorums

With `n` validators of which `f = (n - 1) / 3` may be faulty, two quorums of the count rule share a
validator that is not faulty exactly when `n = 3 f + 1` or `n` is 2, 3 or 6 (`quorum_overlap_iff`):
the rule asks for `2 f + 1` signers and not for `n - f`. `quorums_share_honest` is the statement at the
four sites, in both directions: for any other number two quorums that share only faulty validators are
the first and the last ones of the set. `disjoint_honest_quorums` has two of five validators. -/

namespace XChainIndexer.Quorum.Intersect

open Lib.Overlap IndexTables Quorum.Tally List

/-! ### The signers that count -/

theorem tally_spec (accepts : Sig → Bool) (verifyFirst : Bool) (sigs : List Sig)
    {seen signers : List Text} (hsub : signers ⊆ seen) (hnd : signers.Nodup) :
    (tally accepts verifyFirst seen signers sigs).Nodup ∧ ∀ key ∈ tally accepts verifyFirst seen signers sigs,
        key ∈ signers ∨ ∃ s ∈ sigs, accepts s ∧ s.pubkey = key := by
  induction sigs generalizing seen signers with
  | nil => exact ⟨hnd, fun key h => Or.inl h⟩
  | cons s sigs ih =>
    have weaken : ∀ key, (key ∈ signers ∨ ∃ s' ∈ sigs, accepts s' ∧ s'.pubkey = key) →
        key ∈ signers ∨ ∃ s' ∈ s :: sigs, accepts s' = true ∧ s'.pubkey = key := by
      rintro key (h | ⟨s', hs', h⟩)
      · exact .inl h
      · exact .inr ⟨s', mem_cons_of_mem _ hs', h⟩
    rw [tally]
    split_ifs with hseen hacc hfirst
    · obtain ⟨h₁, h₂⟩ := ih hsub hnd
      exact ⟨h₁, fun key h => weaken key (h₂ key h)⟩
    · have hnew : s.pubkey ∉ signers := fun h => hseen (hsub h)
      have hsub' : signers ++ [s.pubkey] ⊆ s.pubkey :: seen := by
        simpa using List.Subset.trans hsub (subset_cons_self _ _)
      have hnd' : (signers ++ [s.pubkey]).Nodup :=
        nodup_append.mpr ⟨hnd, nodup_singleton _, fun a ha b hb hab =>
          hnew (mem_singleton.mp hb ▸ hab ▸ ha)⟩
      obtain ⟨h₁, h₂⟩ := ih hsub' hnd'
      refine ⟨h₁, fun key h => ?_⟩
      rcases h₂ key h with h | ⟨s', hs', h⟩
      · rcases mem_append.mp h with h | h
        · exact .inl h
        · exact .inr ⟨s, mem_cons_self, hacc, (mem_singleton.mp h).symm⟩
      · exact .inr ⟨s', mem_cons_of_mem _ hs', h⟩
    · obtain ⟨h₁, h₂⟩ := ih hsub hnd
      exact ⟨h₁, fun key h => weaken key (h₂ key h)⟩
    · obtain ⟨h₁, h₂⟩ := ih (List.Subset.trans hsub (subset_cons_self _ _)) hnd
      exact ⟨h₁, fun key h => weaken key (h₂ key h)⟩

/-- The validator signed the message: the list has a signature under its key that verifies. -/
def Signed (k : Crypto) (message : Text) (sigs : List Sig) (key : Text) : Prop :=
  ∃ s ∈ sigs, k.toLowerCase s.pubkey = key ∧ k.verify message (k.toLowerCase s.sig) key = true

theorem reached_spec {site : Site} {k : Crypto} {validators : List Text} {message : Text}
    {sigs : List Sig} (h : site.reached k validators message sigs) :
    ∃ signers : Finset Text, quorum (site.count k validators) ≤ signers.card ∧
      signers ⊆ (snapPubkeys k validators).toFinset ∧ ∀ key ∈ signers, Signed k message sigs key := by
  have of_tally : ∀ (accepts : Sig → Bool) (verifyFirst : Bool) (n : ℕ),
      (∀ s, accepts s → s.pubkey ∈ snapPubkeys k validators ∧ k.verify message s.sig s.pubkey) →
      n ≤ (tally accepts verifyFirst [] [] (sigs.map k.read)).length →
      ∃ signers : Finset Text, n ≤ signers.card ∧
        signers ⊆ (snapPubkeys k validators).toFinset ∧ ∀ key ∈ signers, Signed k message sigs key := by
    intro accepts verifyFirst n hacc hn
    obtain ⟨hnd, hmem⟩ := tally_spec accepts verifyFirst (sigs.map k.read) (List.Subset.refl []) nodup_nil
    have signed : ∀ key ∈ tally accepts verifyFirst [] [] (sigs.map k.read),
        key ∈ snapPubkeys k validators ∧ Signed k message sigs key := by
      intro key hkey
      rcases hmem key hkey with h | ⟨s, hs, hs', rfl⟩
      · exact absurd h (not_mem_nil)
      · obtain ⟨s₀, hs₀, rfl⟩ := mem_map.mp hs
        obtain ⟨hin, hver⟩ := hacc _ hs'
        exact ⟨hin, s₀, hs₀, rfl, hver⟩
    refine ⟨(tally accepts verifyFirst [] [] (sigs.map k.read)).toFinset, ?_, ?_, ?_⟩
    · rwa [toFinset_card_of_nodup hnd]
    · intro key hkey
      exact mem_toFinset.mpr (signed key (mem_toFinset.mp hkey)).1
    · exact fun key hkey => (signed key (mem_toFinset.mp hkey)).2
  cases site with
  | bridge =>
    simp only [Site.reached, verifyQuorum, Bool.and_eq_true, decide_eq_true_eq] at h
    exact of_tally _ _ _ (fun s hs => by simp_all [acceptsShaped]) h.2
  | xcall =>
    simp only [Site.reached, verifyResultQuorum, Bool.and_eq_true, decide_eq_true_eq] at h
    exact of_tally _ _ _ (fun s hs => by simp_all [acceptsShaped]) h.2
  | price verifyFirst =>
    simp only [Site.reached, checkBatchQuorum, decide_eq_true_eq] at h
    exact of_tally _ _ _ (fun s hs => by simp_all) h
  | retraction =>
    simp only [Site.reached, verifyRetractionSignatures, Bool.and_eq_true, decide_eq_true_eq] at h
    exact of_tally _ _ _ (fun s hs => by simp_all) h.2

theorem card_snapPubkeys_le (site : Site) (k : Crypto) (validators : List Text) :
    (snapPubkeys k validators).toFinset.card ≤ site.count k validators := by
  have hlen : (snapPubkeys k validators).toFinset.card ≤ validators.length :=
    (toFinset_card_le _).trans (by simp [snapPubkeys])
  cases site with
  | price verifyFirst => exact (card_toFinset _).le
  | _ => exact hlen

/-! ### The count rule -/

/-- The numbers of validators for which the count rule is a Byzantine quorum. -/
def byzantine (n : ℕ) : Bool := n % 3 = 1 || n = 0 || n = 2 || n = 3 || n = 6

theorem quorum_overlap_iff (n : ℕ) : n + (n - 1) / 3 < 2 * quorum n ↔ byzantine n := by
  simp only [quorum, byzantine, Bool.or_eq_true, decide_eq_true_eq]
  split_ifs
  · omega
  · rw [max_def]
    split_ifs <;> omega

/-! ### Lists that are all accepted -/

variable {site : Site} {k : Crypto} {validators : List Text}

theorem tally_accepted {accepts : Sig → Bool} (verifyFirst : Bool) {sigs : List Sig} {seen signers : List Text}
    (hacc : ∀ s ∈ sigs, accepts s) (hnd : (sigs.map Sig.pubkey).Nodup)
    (hnew : ∀ s ∈ sigs, s.pubkey ∉ seen) :
    tally accepts verifyFirst seen signers sigs = signers ++ sigs.map Sig.pubkey := by
  induction sigs generalizing seen signers with
  | nil => simp [tally]
  | cons s sigs ih =>
    rw [map_cons, nodup_cons] at hnd
    have hnew' : ∀ s' ∈ sigs, s'.pubkey ∉ s.pubkey :: seen := by
      intro s' hs' hmem
      rcases mem_cons.mp hmem with heq | hseen
      · exact hnd.1 (heq ▸ mem_map_of_mem hs')
      · exact hnew s' (mem_cons_of_mem _ hs') hseen
    rw [tally, if_neg (hnew s mem_cons_self), if_pos (hacc s mem_cons_self),
      ih (fun s' hs' => hacc s' (mem_cons_of_mem _ hs')) hnd.2 hnew', map_cons, append_assoc]
    rfl

/-- The validators have keys of their own and can sign. -/
structure Able (k : Crypto) (validators : List Text) : Prop where
  nodup : (snapPubkeys k validators).Nodup
  key : ∀ key ∈ snapPubkeys k validators, k.toLowerCase key = key ∧ isHex 64 key = true
  signs : ∀ key ∈ snapPubkeys k validators, ∀ message, ∃ sig,
    isHex 128 (k.toLowerCase sig) = true ∧ k.verify message (k.toLowerCase sig) key = true

theorem count_of_able (h : Able k validators) : site.count k validators = (snapPubkeys k validators).length := by
  cases site with
  | price => rw [Site.count, getActiveCapabilityCount, h.nodup.dedup]
  | _ => exact (length_map _).symm

/-- As many validators as the quorum asks for can reach it, with signatures of theirs alone. -/
theorem reached_of_able (site : Site) (h : Able k validators) (message : Text) {keys : List Text}
    (hsub : keys.Sublist (snapPubkeys k validators)) (hne : validators ≠ [])
    (hq : quorum (site.count k validators) ≤ keys.length) : ∃ sigs,
      site.reached k validators message sigs ∧ ∀ key, Signed k message sigs key → key ∈ keys := by
  choose! sign hsign using h.signs
  have hin : ∀ key ∈ keys, key ∈ snapPubkeys k validators := fun _ hkey => hsub.subset hkey
  have hpos : 0 < quorum (site.count k validators) := by
    unfold quorum
    split_ifs <;> omega
  refine ⟨keys.map fun key => ⟨key, sign key message⟩, ?_, ?_⟩
  · -- read in lower case the list is itself, and every signature is accepted
    have hread : (keys.map fun key => (⟨key, sign key message⟩ : Sig)).map k.read =
        keys.map fun key => ⟨key, k.toLowerCase (sign key message)⟩ := by
      rw [map_map]
      exact map_congr_left fun key hkey => by simp [Crypto.read, (h.key key (hin key hkey)).1]
    have hkeys : (keys.map fun key => (⟨key, k.toLowerCase (sign key message)⟩ : Sig)).map Sig.pubkey = keys := by
      rw [map_map]
      exact map_id _
    have hlen : ∀ (accepts : Sig → Bool) (verifyFirst : Bool),
        (∀ key ∈ keys, accepts ⟨key, k.toLowerCase (sign key message)⟩) →
        (tally accepts verifyFirst [] [] (keys.map fun key =>
          ⟨key, k.toLowerCase (sign key message)⟩)).length = keys.length := by
      intro accepts verifyFirst hacc
      rw [tally_accepted verifyFirst _ (hkeys.symm ▸ hsub.nodup h.nodup) (by simp), nil_append, hkeys]
      simpa using hacc
    have hshaped : ∀ key ∈ keys, acceptsShaped k validators message ⟨key, k.toLowerCase (sign key message)⟩ := by
      intro key hkey
      simp [acceptsShaped, (h.key key (hin key hkey)).2, hsign key (hin key hkey) message, hin key hkey]
    have hplain : ∀ key ∈ keys, key ≠ [] ∧ key ∈ snapPubkeys k validators ∧
        k.verify message (k.toLowerCase (sign key message)) key := by
      intro key hkey
      refine ⟨?_, hin key hkey, (hsign key (hin key hkey) message).2⟩
      rintro rfl
      exact absurd (h.key [] (hin [] hkey)).2 (by decide)
    have hkeysne : keys ≠ [] := length_pos_iff.mp (hpos.trans_le hq)
    cases site with
    | price verifyFirst =>
      simp only [Site.reached, checkBatchQuorum, hread, decide_eq_true_eq]
      rwa [hlen _ _ fun key hkey => by simp [hplain key hkey]]
    | retraction =>
      simp only [Site.reached, verifyRetractionSignatures, hread, Bool.and_eq_true, decide_eq_true_eq]
      refine ⟨⟨by simpa using hkeysne, hne⟩, ?_⟩
      rwa [hlen _ _ fun key hkey => by simp [hplain key hkey]]
    | bridge | xcall =>
      simp only [Site.reached, verifyQuorum, verifyResultQuorum, hread, Bool.and_eq_true, decide_eq_true_eq]
      exact ⟨hne, by rwa [hlen _ _ hshaped]⟩
  · rintro key ⟨s, hs, hkey, -⟩
    obtain ⟨key', hkey', rfl⟩ := mem_map.mp hs
    have hlower := (h.key key' (hin key' hkey')).1
    rwa [← hkey, hlower]

/-! ### Shared signers -/

/-- Any two quorums share a validator outside any set of as many faulty ones as the rule allows for. -/
def SharesHonest (site : Site) (k : Crypto) (validators : List Text) : Prop :=
  ∀ faulty : Finset Text, faulty.card ≤ (site.count k validators - 1) / 3 → ∀ m₁ m₂ sigs₁ sigs₂,
    site.reached k validators m₁ sigs₁ = true → site.reached k validators m₂ sigs₂ = true →
    ∃ key ∈ snapPubkeys k validators, key ∉ faulty ∧ Signed k m₁ sigs₁ key ∧ Signed k m₂ sigs₂ key

/-- A key among the first `q` and the last `q` is one of those in the middle. -/
theorem mem_middle {keys : List Text} (hnd : keys.Nodup) {m q : ℕ} {key : Text} (hfirst : key ∈ keys.take q)
    (hlast : key ∈ keys.drop m) : key ∈ (keys.take q).drop m := by
  rw [← take_append_drop m (keys.take q), mem_append] at hfirst
  refine hfirst.resolve_left fun hmem => ?_
  rw [take_take] at hmem
  exact disjoint_take_drop hnd (min_le_left m q) hmem hlast

theorem quorum_bounds {n : ℕ} (h : 0 < n) : (n - 1) / 3 < quorum n ∧ quorum n + (n - 1) / 3 ≤ n := by
  unfold quorum
  split_ifs <;> omega

/-- **Two quorums share an honest validator**, at each site, for the numbers of validators the count
rule is a Byzantine quorum for; and for no other number, if the validators can sign. -/
theorem quorums_share_honest (site : Site) (k : Crypto) (validators : List Text) :
    (byzantine (site.count k validators) = true → SharesHonest site k validators) ∧
      (Able k validators → SharesHonest site k validators → byzantine (site.count k validators) = true) := by
  constructor
  · intro hn faulty hf m₁ m₂ sigs₁ sigs₂ h₁ h₂
    obtain ⟨a, hqa, ha, hsa⟩ := reached_spec h₁
    obtain ⟨b, hqb, hb, hsb⟩ := reached_spec h₂
    have hover := (quorum_overlap_iff _).mpr hn
    obtain ⟨key, hka, hkb, hkf⟩ := exists_mem_inter_notMem (f := faulty) ha hb
      (card_snapPubkeys_le site k validators) hqa hqb (by omega)
    exact ⟨key, mem_toFinset.mp (ha hka), hkf, hsa key hka, hsb key hkb⟩
  · intro hable hshares
    by_contra hn
    set keys := snapPubkeys k validators with hkeys
    set q := quorum (site.count k validators) with hq
    have hcount : site.count k validators = keys.length := count_of_able hable
    have hover := mt (quorum_overlap_iff _).mp hn
    have hpos : 0 < site.count k validators := Nat.pos_of_ne_zero fun h => hn (by rw [h]; decide)
    obtain ⟨-, hle⟩ := quorum_bounds hpos
    have hne : validators ≠ [] := by
      rintro rfl
      simp [hkeys, snapPubkeys, hcount] at hpos
    -- the first `q` validators sign one message and the last `q` the other
    obtain ⟨sigs₁, h₁, hs₁⟩ := reached_of_able site hable ['a'] (take_sublist q keys) hne (by
      rw [length_take]
      omega)
    obtain ⟨sigs₂, h₂, hs₂⟩ := reached_of_able site hable ['b'] (drop_sublist (keys.length - q) keys)
      hne (by
        rw [length_drop]
        omega)
    obtain ⟨key, -, hnot, hsigned₁, hsigned₂⟩ := hshares ((keys.take q).drop (keys.length - q)).toFinset (by
      refine (toFinset_card_le _).trans ?_
      rw [length_drop, length_take]
      omega) ['a'] ['b'] sigs₁ sigs₂ h₁ h₂
    exact hnot (mem_toFinset.mpr (mem_middle hable.nodup (hs₁ key hsigned₁) (hs₂ key hsigned₂)))

/-! ### Five validators -/

/-- The key of a number: 64 times its digit. -/
def keyOf (ch : Char) : Text := List.replicate 64 ch

/-- Signatures are not told apart. -/
def plain : Crypto := ⟨id, fun _ _ _ => true⟩

def signedBy (keys : List Char) : List Sig := keys.map fun ch => ⟨keyOf ch, List.replicate 128 '0'⟩

def fiveValidators : List Text := ['1', '2', '3', '4', '5'].map keyOf

theorem able_plain {keys : List Text} (hnd : keys.Nodup) (hhex : ∀ key ∈ keys, isHex 64 key = true) :
    Able plain keys := by
  have hsnap : snapPubkeys plain keys = keys := map_id _
  refine ⟨hsnap.symm ▸ hnd, fun key hkey => ⟨rfl, hhex key (hsnap ▸ hkey)⟩, fun _ _ _ => ?_⟩
  exact ⟨List.replicate 128 '0', by decide +kernel, rfl⟩

/-- Four validators are a Byzantine quorum, five are not. -/
theorem quorums_share_honest_four : SharesHonest .bridge plain (['1', '2', '3', '4'].map keyOf) ∧
    ¬ SharesHonest .bridge plain fiveValidators :=
  ⟨(quorums_share_honest .bridge plain _).1 (by decide +kernel), fun h => absurd
    ((quorums_share_honest .bridge plain _).2 (able_plain (by decide +kernel) (by decide +kernel)) h)
    (by decide +kernel)⟩

/-- One of five may be faulty and three are a quorum: two quorums have no other signer in common. -/
theorem disjoint_honest_quorums :
    [Site.bridge, .xcall, .price true, .price false, .retraction].Forall (fun site =>
      ({keyOf '3'} : Finset Text).card ≤ (site.count plain fiveValidators - 1) / 3 ∧
        site.reached plain fiveValidators ['a'] (signedBy ['1', '2', '3']) = true ∧
        site.reached plain fiveValidators ['b'] (signedBy ['3', '4', '5']) = true) ∧
      ¬ ∃ key ∈ snapPubkeys plain fiveValidators, key ∉ ({keyOf '3'} : Finset Text) ∧
        Signed plain ['a'] (signedBy ['1', '2', '3']) key ∧
        Signed plain ['b'] (signedBy ['3', '4', '5']) key := by
  constructor
  · decide +kernel
  · unfold Signed
    decide +kernel

end XChainIndexer.Quorum.Intersect
