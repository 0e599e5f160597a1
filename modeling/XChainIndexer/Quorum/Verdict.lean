import XChainIndexer.Quorum.Intersect
import XChainIndexer.Quorum.Stake

/-! # The verdict on a relayed signature list

The lists that the sites of `Quorum.Tally` check come from a mirror or a relay. `Check.verdict` is
their check with both rules, count and stake, on entries as they parse. The verdict depends on the
keys that verify alone (`verdict_stable`), and a third of the validators neither forges nor blocks it
(`third_cannot_decide`), except that reading an entry may throw: every relayed site throws on a field
without a text, and a result of a cross-chain call on an entry `null` too, which the bridge and the
retractions pass over (`null_entry_throws`). -/

namespace XChainIndexer.Quorum.Verdict

open IndexTables Quorum.Tally Quorum.Intersect List Option
open Quorum.Stake (Snapshot meetsStakeThreshold meets_of_standsFor_subset standsFor_subset
  exists_index_of_meets sumStakeWeights)

/-- An entry of a signature list: `null`, a value with a field that has no text (an object whose own
`toString` is no function), or one with the texts of its two fields. -/
inductive Entry
  | null
  | textless
  | value (s : Sig)

def Entry.read (k : Crypto) : Entry → Sig
  | null | textless => k.read ⟨[], []⟩
  | value s => k.read s

/-- Reading the fields throws: `String` of a field without a text and, at the cross-chain calls, a field
of `null`. The signatures of a price batch are texts already. -/
def Entry.throws : Site → Entry → Bool
  | .price _, _ => false
  | .xcall, .null => true
  | _, .null => false
  | _, .textless => true
  | _, .value _ => false

/-- What a site reads: the keys of the validators, their stakes where stakes decide, the message. -/
structure Check where
  site : Site
  trim : Text → Text
  validators : List Text
  stakes : Option Snapshot
  message : Text

variable (k : Crypto) (c : Check)

def Check.accepts (s : Sig) : Bool :=
  match c.site with
  | .price _ => decide (s.pubkey ∈ snapPubkeys k c.validators) && k.verify c.message s.sig s.pubkey
  | .retraction => decide (s.pubkey ≠ []) && decide (s.pubkey ∈ snapPubkeys k c.validators) &&
    k.verify c.message s.sig s.pubkey
  | _ => acceptsShaped k c.validators c.message s

def Check.verifyFirst : Bool :=
  match c.site with
  | .price first => first
  | _ => true

/-- There is a set to check against and, for a retraction, something to check. -/
def Check.present (es : List Entry) : Bool :=
  match c.site with
  | .price _ => true
  | .retraction => decide (es ≠ []) && decide (c.validators ≠ [])
  | _ => decide (c.validators ≠ [])

/-- `validSigners`. -/
def Check.signers (es : List Entry) : List Text :=
  tally (c.accepts k) c.verifyFirst [] [] (es.map (Entry.read k))

def Check.met (signers : List Text) : Bool :=
  match c.stakes with
  | none => quorum (c.site.count k c.validators) ≤ signers.length
  | some snapshot => meetsStakeThreshold ⟨c.trim, k.toLowerCase⟩ snapshot signers

/-- Nothing is read without validators. -/
def Check.throws (es : List Entry) : Bool := decide (c.validators ≠ []) && es.any (Entry.throws c.site)

/-- The verdict, `none` where the site throws. -/
def Check.verdict (es : List Entry) : Option Bool :=
  if c.throws es then none else some (c.present es && c.met k (c.signers k es))

/-- With the count rule and without `null` the verdict is that of `Site.reached`. -/
theorem verdict_values (sigs : List Sig) (h : c.stakes = none) :
    c.verdict k (sigs.map .value) = some (c.site.reached k c.validators c.message sigs) := by
  obtain ⟨site, trim, validators, stakes, message⟩ := c
  obtain rfl : stakes = none := h
  have hread : (sigs.map Entry.value).map (Entry.read k) = sigs.map k.read := by simp [Entry.read]
  have hthrows : Check.throws ⟨site, trim, validators, none, message⟩ (sigs.map .value) = false := by
    cases site <;> simp [Check.throws, Entry.throws]
  rw [Check.verdict, Check.signers, hread, hthrows, if_neg Bool.false_ne_true]
  cases site with
  | retraction => cases sigs <;> rfl
  | _ => rfl

/-! ### The keys that verify -/

/-- A key counts: the list has an accepted signature under it. -/
def Check.Verifies (es : List Entry) (key : Text) : Prop :=
  ∃ e ∈ es, c.accepts k (e.read k) = true ∧ (e.read k).pubkey = key

theorem accepted_mem_tally {accepts : Sig → Bool} (sigs : List Sig) {seen signers : List Text}
    (hsub : seen ⊆ signers) : signers ⊆ tally accepts true seen signers sigs ∧
      ∀ s ∈ sigs, accepts s → s.pubkey ∈ tally accepts true seen signers sigs := by
  induction sigs generalizing seen signers with
  | nil => exact ⟨List.Subset.refl _, by simp⟩
  | cons s sigs ih =>
    rw [tally, forall_mem_cons]
    split_ifs with hseen hacc hfirst
    · obtain ⟨hold, hnew⟩ := ih hsub
      exact ⟨hold, fun _ => hold (hsub hseen), hnew⟩
    · have hsub' : s.pubkey :: seen ⊆ signers ++ [s.pubkey] := by
        rw [cons_subset]
        exact ⟨by simp, subset_append_of_subset_left _ hsub⟩
      obtain ⟨hold, hnew⟩ := ih hsub'
      exact ⟨fun key hkey => hold (mem_append_left _ hkey), fun _ => hold (by simp), hnew⟩
    · obtain ⟨hold, hnew⟩ := ih hsub
      exact ⟨hold, fun h => absurd h hacc, hnew⟩
    · exact absurd rfl hfirst

variable {k c} {es es' : List Entry}

theorem mem_of_accepts {s : Sig} (h : c.accepts k s) : s.pubkey ∈ snapPubkeys k c.validators := by
  unfold Check.accepts at h
  cases hsite : c.site <;> simp_all [acceptsShaped]

theorem signers_spec (k : Crypto) (c : Check) (es : List Entry) : (c.signers k es).Nodup ∧
    ∀ key ∈ c.signers k es, key ∈ snapPubkeys k c.validators ∧ c.Verifies k es key := by
  obtain ⟨hnd, hmem⟩ := tally_spec (c.accepts k) c.verifyFirst (es.map (Entry.read k))
    (List.Subset.refl []) nodup_nil
  refine ⟨hnd, fun key hkey => ?_⟩
  rcases hmem key hkey with h | ⟨s, hs, hacc, rfl⟩
  · cases h
  · obtain ⟨e, he, rfl⟩ := mem_map.mp hs
    exact ⟨mem_of_accepts hacc, e, he, hacc, rfl⟩

theorem mem_signers (hfirst : c.verifyFirst) {key : Text} : key ∈ c.signers k es ↔ c.Verifies k es key := by
  refine ⟨fun hkey => ((signers_spec k c es).2 key hkey).2, ?_⟩
  rintro ⟨e, he, hacc, rfl⟩
  rw [Check.signers, hfirst]
  exact (accepted_mem_tally _ (List.Subset.refl [])).2 _ (mem_map_of_mem he) hacc

/-- Stakes that the ledger can hold. -/
def Check.Exact (k : Crypto) (c : Check) : Prop :=
  ∀ snapshot ∈ c.stakes, snapshot.Exact ⟨c.trim, k.toLowerCase⟩

theorem met_mono (hex : c.Exact k) {signers signers' : List Text} (hnd : signers.Nodup)
    (hsub : signers ⊆ signers') (h : c.met k signers) : c.met k signers' := by
  unfold Check.met at h ⊢
  cases hs : c.stakes with
  | none =>
    rw [hs] at h
    exact decide_eq_true ((of_decide_eq_true h).trans (hnd.subperm hsub).length_le)
  | some snapshot =>
    rw [hs] at h
    exact meets_of_standsFor_subset (hex snapshot hs) (standsFor_subset (map_subset _ hsub)) h

theorem not_met_nil : c.met k [] = false := by
  unfold Check.met
  cases c.stakes with
  | none =>
    have hpos : 0 < quorum (c.site.count k c.validators) := by
      unfold quorum
      split_ifs <;> omega
    simpa using hpos.ne'
  | some snapshot =>
    refine Bool.eq_false_iff.mpr fun h => ?_
    obtain ⟨index, hindex⟩ := exists_index_of_meets h
    cases htotal : sumStakeWeights index.weightBySource with
    | none => simp [meetsStakeThreshold, hindex, htotal] at h
    | some total =>
      have hpos : 0 < total := of_decide_eq_true (filter_eq_some_iff.mp htotal).2
      have hzero : Lib.Decimal.toSignificant Bcmath.precision (0 * 3) = 0 := by
        simp [Lib.Decimal.toSignificant]
      have hle := Lib.Decimal.toSignificant_nonneg Bcmath.precision (by linarith : 0 ≤ total * 2)
      simp only [meetsStakeThreshold, hindex, htotal, Bool.and_eq_true, decide_eq_true_eq] at h
      exact absurd (h.2.trans_eq hzero) (not_lt.mpr hle)

theorem verdict_mono (hfirst : c.verifyFirst) (hex : c.Exact k) (hthrow : c.throws es' = false)
    (hkeys : ∀ key, c.Verifies k es key → c.Verifies k es' key) (h : c.verdict k es = some true) :
    c.verdict k es' = some true := by
  unfold Check.verdict at h ⊢
  split_ifs at h
  obtain ⟨hpresent, hmet⟩ := Bool.and_eq_true_iff.mp (some.inj h)
  have hmet' : c.met k (c.signers k es') := met_mono hex (signers_spec k c es).1
    (fun key hkey => (mem_signers hfirst).mpr (hkeys key ((mem_signers hfirst).mp hkey))) hmet
  have hne : es' ≠ [] := by
    rintro rfl
    rw [show c.signers k [] = [] from rfl, not_met_nil] at hmet'
    cases hmet'
  unfold Check.present at hpresent ⊢
  cases hsite : c.site <;> simp_all

/-- What a relay can do to a list without a signature of a validator. -/
inductive Check.Edit (k : Crypto) (c : Check) : List Entry → List Entry → Prop
  | reorder {es es' : List Entry} : es.Perm es' → Edit k c es es'
  | duplicate {es : List Entry} {e : Entry} : e ∈ es → Edit k c es (e :: es)
  | recase {es es' : List Entry} : es.map (Entry.read k) = es'.map (Entry.read k) → Edit k c es es'
  | insert {es : List Entry} {e : Entry} : c.accepts k (e.read k) = false → Edit k c es (e :: es)

theorem Edit.verifies_iff (h : c.Edit k es es') (key : Text) :
    c.Verifies k es key ↔ c.Verifies k es' key := by
  have hmap : ∀ es : List Entry, c.Verifies k es key ↔
      ∃ s ∈ es.map (Entry.read k), c.accepts k s ∧ s.pubkey = key := by
    simp [Check.Verifies]
  cases h with
  | reorder h => simp [Check.Verifies, h.mem_iff]
  | duplicate he =>
    refine ⟨fun ⟨e', he', h⟩ => ⟨e', mem_cons_of_mem _ he', h⟩, fun ⟨e', he', h⟩ => ⟨e', ?_, h⟩⟩
    rcases mem_cons.mp he' with rfl | he'
    · exact he
    · exact he'
  | recase h => rw [hmap, hmap, h]
  | insert he => simp [Check.Verifies, he]

/-- **The verdict depends on the keys that verify alone**, where the site throws on both lists or on
neither: reordering, repeating or re-casing entries and inserting entries that do not verify, any number
of times, leaves it as it is exactly then. More entries turn a met quorum into an unmet one exactly if
the site throws on one of them. -/
theorem verdict_stable (hfirst : c.verifyFirst = true) (hex : c.Exact k) :
    (Relation.EqvGen (c.Edit k) es es' →
      (c.verdict k es = c.verdict k es' ↔ c.throws es = c.throws es')) ∧
    (es ⊆ es' → c.verdict k es = some true → (c.verdict k es' = some true ↔ c.throws es' = false)) := by
  have hnone : ∀ es, c.verdict k es = none ↔ c.throws es := by
    intro es
    unfold Check.verdict
    split_ifs with h <;> simp [h]
  refine ⟨fun hedit => ⟨fun heq => ?_, fun hthrows => ?_⟩, fun hsub hmet => ⟨fun h => ?_, fun h' => ?_⟩⟩
  · rw [Bool.eq_iff_iff, ← hnone, ← hnone, heq]
  · have hkeys : ∀ key, c.Verifies k es key ↔ c.Verifies k es' key := by
      clear hthrows
      induction hedit with
      | rel _ _ hstep => exact Edit.verifies_iff hstep
      | refl => exact fun key => Iff.rfl
      | symm _ _ _ ih => exact fun key => (ih key).symm
      | trans _ _ _ _ _ ih ih' => exact fun key => (ih key).trans (ih' key)
    cases h : c.throws es with
    | true => rw [(hnone es).mpr h, (hnone es').mpr (hthrows ▸ h)]
    | false =>
      have h' : c.throws es' = false := hthrows ▸ h
      have hiff : c.verdict k es = some true ↔ c.verdict k es' = some true :=
        ⟨verdict_mono hfirst hex h' fun key => (hkeys key).mp,
          verdict_mono hfirst hex h fun key => (hkeys key).mpr⟩
      unfold Check.verdict at hiff ⊢
      rw [h, h', if_neg Bool.false_ne_true, if_neg Bool.false_ne_true] at hiff ⊢
      rw [some.injEq, some.injEq] at hiff
      exact congrArg some (Bool.eq_iff_iff.mpr hiff)
  · rw [Bool.eq_false_iff, ne_eq, ← hnone, h]
    simp
  · refine verdict_mono hfirst hex h' ?_ hmet
    rintro key ⟨e, he, hkey⟩
    exact ⟨e, hsub he, hkey⟩

/-! ### Validators that sign anything or nothing -/

/-- **A third cannot decide.** Under the count rule, `(n - 1) / 3` of `n` validators cannot pass a message
that no other validator signed; and where a signature is verified before its key is spent they cannot
stop a message that all others signed, whatever they put into the list. -/
theorem third_cannot_decide (hcount : c.stakes = none) (hthrow : c.throws es = false)
    (hset : c.validators ≠ []) {faulty : Finset Text}
    (hf : faulty.card ≤ (c.site.count k c.validators - 1) / 3) : (c.verdict k es = some true →
      ∃ key ∈ snapPubkeys k c.validators, key ∉ faulty ∧ c.Verifies k es key) ∧
    (c.verifyFirst = true → (snapPubkeys k c.validators).Nodup →
      (∀ key ∈ snapPubkeys k c.validators, key ∉ faulty → c.Verifies k es key) →
      c.verdict k es = some true) := by
  obtain ⟨hnd, hsigned⟩ := signers_spec k c es
  have hmet : c.met k (c.signers k es) ↔
      quorum (c.site.count k c.validators) ≤ (c.signers k es).toFinset.card := by
    rw [toFinset_card_of_nodup hnd, Check.met, hcount, decide_eq_true_eq]
  have hsnap : snapPubkeys k c.validators ≠ [] := by simpa [snapPubkeys] using hset
  have hpos : 0 < c.site.count k c.validators := by
    cases c.site <;> simp [Site.count, getActiveCapabilityCount, length_pos_iff, hset, hsnap]
  obtain ⟨hlow, hhigh⟩ := quorum_bounds hpos
  rw [Check.verdict, hthrow, if_neg Bool.false_ne_true, some.injEq, Bool.and_eq_true, hmet]
  refine ⟨fun h => ?_, fun hfirst hnodup hhonest => ?_⟩
  · obtain ⟨key, hkey, hnot⟩ := Finset.exists_mem_notMem_of_card_lt_card (hf.trans_lt (hlow.trans_le h.2))
    obtain ⟨hmem, hver⟩ := hsigned key (mem_toFinset.mp hkey)
    exact ⟨key, hmem, hnot, hver⟩
  · have hsub : (snapPubkeys k c.validators).toFinset \ faulty ⊆ (c.signers k es).toFinset := by
      intro key hkey
      obtain ⟨hmem, hnot⟩ := Finset.mem_sdiff.mp hkey
      exact mem_toFinset.mpr ((mem_signers hfirst).mpr (hhonest key (mem_toFinset.mp hmem) hnot))
    have hall : (snapPubkeys k c.validators).toFinset.card = c.site.count k c.validators := by
      have hlen : (snapPubkeys k c.validators).length = c.validators.length := length_map _
      rw [toFinset_card_of_nodup hnodup]
      cases c.site <;> simp [Site.count, getActiveCapabilityCount, hnodup.dedup, hlen]
    have hcard := Finset.card_le_card hsub
    have hdiff := Finset.le_card_sdiff faulty (snapPubkeys k c.validators).toFinset
    have hreached : quorum (c.site.count k c.validators) ≤ (c.signers k es).toFinset.card := by omega
    refine ⟨?_, hreached⟩
    have hes : es ≠ [] := by
      rintro rfl
      simp [Check.signers, tally] at hreached
      omega
    unfold Check.present
    cases c.site <;> simp [hset, hes]

/-- Four validators, of which the second may be faulty. -/
def fourValidators : Check := ⟨.bridge, id, ['1', '2', '3', '4'].map keyOf, none, ['a']⟩

/-- The signatures of the others, behind an entry that is none. -/
def threeSigned : List Entry := .null :: (signedBy ['1', '3', '4']).map .value

theorem third_cannot_decide_four : fourValidators.verdict plain threeSigned = some true :=
  (@third_cannot_decide plain fourValidators threeSigned rfl rfl (by decide) {keyOf '2'}
    (by decide +kernel)).2 rfl (by decide +kernel) (by unfold Check.Verifies; decide +kernel)

/-! ### An entry that is no signature -/

/-- One validator, whose every signature verifies. -/
def soleValidator (site : Site) : Check := ⟨site, id, [List.replicate 64 'a'], none, []⟩

def soleSignature : Entry := .value ⟨List.replicate 64 'a', List.replicate 128 'a'⟩

/-- An inserted `null` takes the verdict from a cross-chain result, and not from a bridge row; an entry
with a field that has no text takes it from both. -/
theorem null_entry_throws :
    (soleValidator .xcall).verdict plain [soleSignature] = some true ∧
      (soleValidator .xcall).verdict plain [.null, soleSignature] = none ∧
      (soleValidator .bridge).verdict plain [.null, soleSignature] = some true ∧
      (soleValidator .bridge).verdict plain [.textless, soleSignature] = none := by
  decide

/-- A value without a signature in front of the one that counts passes, a `null` does not. -/
theorem inserted_value_passes :
    (soleValidator .xcall).verdict plain [soleSignature] =
        (soleValidator .xcall).verdict plain [.value ⟨[], []⟩, soleSignature] ∧
      (soleValidator .xcall).verdict plain [soleSignature] ≠
        (soleValidator .xcall).verdict plain [.null, soleSignature] := by
  have hex : ∀ site, (soleValidator site).Exact plain := by simp [Check.Exact, soleValidator]
  exact ⟨((verdict_stable rfl (hex .xcall)).1 (.rel _ _ (.insert rfl))).mpr rfl, fun h =>
    absurd (((verdict_stable rfl (hex .xcall)).1 (.rel _ _ (.insert rfl))).mp h) (by decide)⟩

end XChainIndexer.Quorum.Verdict
