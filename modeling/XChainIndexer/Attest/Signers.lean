import Mathlib.Data.Char
import XChainIndexer.Quorum.Tally

/-! # The responsible set of an attestation and its signers

A request's responsible set is the start of the capability's validators ranked by a hash
(`actions/attest/responsible_set.js`); with stake weights it draws one key for each staking source. A
response stores the first signers in that ranking, so that nodes that hold different verified signatures
store the same ones. Main result: `signers_stable`. -/

namespace XChainIndexer.Attest.Signers

open IndexTables List
open Quorum.Tally (Sig)

/-! ### The draw -/

/-- A row of `getStakeWeightsByCapability`, or of `getValidatorsByCapability` without source. -/
structure Validator where
  pubkey : Text
  source : Option Text
  weight : ℚ

structure Ranked where
  pubkey : Text
  source : Option Text
  hash : Text

/-- The first row of each source; a row without one is kept. -/
def firstOfSource : List Text → List Ranked → List Ranked
  | _, [] => []
  | seen, v :: vs =>
    match v.source with
    | none => v :: firstOfSource seen vs
    | some s => if s ∈ seen then firstOfSource seen vs else v :: firstOfSource (s :: seen) vs

/-- `Math.max(1, Number(redundancy) || 1) + extra`, as the end of a slice; `none` is not a number. -/
def slots (redundancy widen : Option ℚ) : ℕ :=
  let r := redundancy.getD 1
  ⌊max 1 (if r = 0 then 1 else r) + max 0 (widen.getD 0)⌋.toNat

/-- The keys ranked by `sha256(requestId ‖ pubkey)`. -/
def rankResponsibleSet (lower sha256 : Text → Text) (validators : List Validator) (requestId : Text)
    (redundancy : Option ℚ) (weighted : Bool) (widen : Option ℚ) : List Text :=
  let withHash := (validators.map fun v =>
    let pk := lower v.pubkey
    (⟨pk, v.source, sha256 (requestId ++ pk)⟩ : Ranked)).insertionSort fun a b => a.hash ≤ b.hash
  let draw := if weighted then firstOfSource [] withHash else withHash
  (draw.take (slots redundancy widen)).map (·.pubkey)

/-- `resolveResponsibleSet`: the validators read, those whose key rolled the gates in force, and with
stake weights those at or above the provider's floor; without a floor none. -/
def resolveResponsibleSet (lower sha256 : Text → Text) (validators : List Validator)
    (rolled : Text → Bool) (floor : Option ℚ) (requestId : Text) (redundancy : Option ℚ) (weighted : Bool)
    (widen : Option ℚ) : List Text :=
  let filtered := validators.filter fun v => rolled (lower v.pubkey)
  let meets := if weighted then filtered.filter fun v => floor.any (· ≤ v.weight) else filtered
  rankResponsibleSet lower sha256 meets requestId redundancy weighted widen

section
variable (vs : List Ranked) (seen : List Text)

theorem nodup_firstOfSource : ((firstOfSource seen vs).filterMap (·.source)).Nodup ∧
      ∀ s ∈ (firstOfSource seen vs).filterMap (·.source), s ∉ seen := by
  induction vs generalizing seen with
  | nil => simp [firstOfSource]
  | cons v vs ih =>
    unfold firstOfSource
    cases hs : v.source with
    | none => simpa [hs] using ih seen
    | some s =>
      dsimp only
      split_ifs with hseen
      · exact ih seen
      · obtain ⟨hnd, hnew⟩ := ih (s :: seen)
        rw [filterMap_cons, hs]
        refine ⟨nodup_cons.mpr ⟨fun hmem => hnew s hmem (by simp), hnd⟩, fun t ht => ?_⟩
        rcases mem_cons.mp ht with rfl | ht
        · exact hseen
        · exact fun hmem => hnew t ht (by simp [hmem])

theorem firstOfSource_sublist : (firstOfSource seen vs).Sublist vs := by
  fun_induction firstOfSource seen vs with
  | case1 => exact Sublist.refl _
  | case2 seen v vs _ ih => exact ih.cons_cons v
  | case3 seen v vs s _ _ ih => exact ih.cons v
  | case4 seen v vs s _ _ ih => exact ih.cons_cons v

end

/-- Each key was drawn for a validator, and no two for one source. -/
def OnePerSource (lower : Text → Text) (validators : List Validator) (keys : List Text) : Prop :=
  ∃ draw : List Ranked, keys = draw.map (·.pubkey) ∧ (draw.filterMap (·.source)).Nodup ∧
    ∀ r ∈ draw, ∃ v ∈ validators, r.pubkey = lower v.pubkey ∧ r.source = v.source

/-! ### The signers -/

/-- An entry with its key in lower case. -/
def readEntry (lower : Text → Text) (e : Sig) : Sig := ⟨lower e.pubkey, e.sig⟩

/-- The walk over the ranked keys: a key without a verified signature or taken before is passed over,
up to `limit` signers. -/
def pick (first : Text → Option Sig) : List Text → List Text → ℕ → List Sig
  | [], _, _ => []
  | _ :: _, _, 0 => []
  | pk :: rest, taken, limit + 1 =>
    if pk ∈ taken then pick first rest taken (limit + 1)
    else match first pk with
      | none => pick first rest taken (limit + 1)
      | some e => e :: pick first rest (pk :: taken) limit

/-- The map of the first entry of each key. -/
def firstEntry (entries : List Sig) (pk : Text) : Option Sig := entries.find? (·.pubkey = pk)

def canonicalSignerSet (lower : Text → Text) (verifiedSigs : List Sig) (responsible : List Text)
    (redundancy : Option ℚ) : List Sig :=
  let first := firstEntry (verifiedSigs.map (readEntry lower))
  let limit := (redundancy.elim 0 Int.floor).toNat
  (pick first (responsible.map lower) [] limit).insertionSort fun a b => a.pubkey ≤ b.pubkey

/-- One signature for each key, whatever its case. -/
def OnePerKey (lower : Text → Text) (sigs : List Sig) : Prop :=
  ∀ a ∈ sigs, ∀ b ∈ sigs, lower a.pubkey = lower b.pubkey → a.sig = b.sig

/-- The entries of one list, their keys in lower case, are entries of another. -/
def Within (lower : Text → Text) (sigs sigs' : List Sig) : Prop :=
  sigs.map (readEntry lower) ⊆ sigs'.map (readEntry lower)

variable {lower : Text → Text} {V W : List Sig} {e : Sig}

theorem firstEntry_eq_some_iff (h : OnePerKey lower V) {pk : Text} :
    firstEntry (V.map (readEntry lower)) pk = some e ↔ e ∈ V.map (readEntry lower) ∧ e.pubkey = pk := by
  constructor
  · intro hf
    exact ⟨mem_of_find?_eq_some hf, by simpa using find?_some hf⟩
  · rintro ⟨he, rfl⟩
    have hsome : (firstEntry (V.map (readEntry lower)) e.pubkey).isSome :=
      find?_isSome.mpr ⟨e, he, by simp⟩
    obtain ⟨e', he'⟩ := Option.isSome_iff_exists.mp hsome
    have hkey : e'.pubkey = e.pubkey := by simpa using find?_some he'
    obtain ⟨a, ha, rfl⟩ := mem_map.mp (mem_of_find?_eq_some he')
    obtain ⟨b, hb, rfl⟩ := mem_map.mp he
    have hsig := h a ha b hb hkey
    rw [he', readEntry, hsig]
    exact congrArg some (congrArg (Sig.mk · b.sig) hkey)

variable {ks taken : List Text} {n : ℕ}

theorem mem_of_mem_pick {first : Text → Option Sig}
    (h : e ∈ pick first ks taken n) : ∃ pk, first pk = some e := by
  induction ks, taken, n using pick.induct first with
  | case1 => simp [pick] at h
  | case2 => simp [pick] at h
  | case3 pk rest taken n hmem ih => exact ih (by simpa [pick, hmem] using h)
  | case4 pk rest taken n hmem hf ih => exact ih (by simpa [pick, hf] using h)
  | case5 pk rest taken n hmem e' hf ih =>
    simp only [pick, hmem, if_false, hf, mem_cons] at h
    rcases h with rfl | h
    · exact ⟨pk, hf⟩
    · exact ih h

/-- The walk finds the same signers in a part of the entries that holds them. -/
theorem pick_eq {f g : Text → Option Sig}
    (hsub : ∀ pk e, g pk = some e → f pk = some e) (hkey : ∀ pk e, f pk = some e → e.pubkey = pk)
    (hall : ∀ e ∈ pick f ks taken n, g e.pubkey = some e) : pick g ks taken n = pick f ks taken n := by
  induction ks, taken, n using pick.induct f with
  | case1 => simp [pick]
  | case2 => simp [pick]
  | case3 pk rest taken n hmem ih =>
    simp only [pick, hmem, if_true] at hall ⊢
    exact ih hall
  | case4 pk rest taken n hmem hf ih =>
    have hg : g pk = none := Option.eq_none_iff_forall_ne_some.mpr fun e he => by
      simp [hsub pk e he] at hf
    simp only [pick, hmem, if_false, hf, hg] at hall ⊢
    exact ih hall
  | case5 pk rest taken n hmem e hf ih =>
    simp only [pick, hmem, if_false, hf, mem_cons] at hall ⊢
    have hg : g pk = some e := hkey pk e hf ▸ hall e (Or.inl rfl)
    rw [hg, ih fun e' he' => hall e' (Or.inr he')]

variable {responsible : List Text} {redundancy : Option ℚ}

theorem canonicalSignerSet_subset (h : OnePerKey lower V) :
    canonicalSignerSet lower V responsible redundancy ⊆ V.map (readEntry lower) := by
  intro e he
  obtain ⟨pk, hf⟩ := mem_of_mem_pick ((mem_insertionSort _).mp he)
  exact ((firstEntry_eq_some_iff h).mp hf).1

theorem canonicalSignerSet_eq (h : OnePerKey lower V) (hsub : Within lower W V)
    (hin : canonicalSignerSet lower V responsible redundancy ⊆ W.map (readEntry lower)) :
    canonicalSignerSet lower W responsible redundancy =
      canonicalSignerSet lower V responsible redundancy := by
  have hW : OnePerKey lower W := by
    intro a ha b hb hkey
    obtain ⟨a', ha', hra⟩ := mem_map.mp (hsub (mem_map_of_mem ha))
    obtain ⟨b', hb', hrb⟩ := mem_map.mp (hsub (mem_map_of_mem hb))
    simp only [readEntry, Sig.mk.injEq] at hra hrb
    rw [← hra.2, ← hrb.2]
    exact h a' ha' b' hb' (by rw [hra.1, hrb.1, hkey])
  refine congrArg (insertionSort _) (pick_eq (fun pk e he => ?_) (fun pk e he => ?_) fun e he => ?_)
  · obtain ⟨hmem, hpk⟩ := (firstEntry_eq_some_iff hW).mp he
    exact (firstEntry_eq_some_iff h).mpr ⟨hsub hmem, hpk⟩
  · exact ((firstEntry_eq_some_iff h).mp he).2
  · exact (firstEntry_eq_some_iff hW).mpr ⟨hin ((mem_insertionSort _).mpr he), rfl⟩

/-- **Nodes with different signatures store the same signers.** With one signature for each key, the
canonical signers do not change with the order, the repetitions and the case of the verified entries, nor
when entries are left out that are not among them. With stake weights no source has two slots of the
responsible set. -/
theorem signers_stable (sha256 : Text → Text) (responsible : List Text) (redundancy widen : Option ℚ)
    (V : List Sig) (h : OnePerKey lower V) (validators : List Validator) (rolled : Text → Bool)
    (floor : Option ℚ) (requestId : Text) :
    (∀ V', Within lower V V' → Within lower V' V →
      canonicalSignerSet lower V' responsible redundancy =
        canonicalSignerSet lower V responsible redundancy) ∧
    (∀ W, Within lower W V →
      canonicalSignerSet lower V responsible redundancy ⊆ W.map (readEntry lower) →
      canonicalSignerSet lower W responsible redundancy =
        canonicalSignerSet lower V responsible redundancy) ∧
    OnePerSource lower validators
      (resolveResponsibleSet lower sha256 validators rolled floor requestId redundancy true widen) := by
  refine ⟨fun V' hsub hsub' => canonicalSignerSet_eq h hsub' fun e he => ?_,
    fun W hsub hin => canonicalSignerSet_eq h hsub hin, _, rfl, ?_, fun r hr => ?_⟩
  · exact hsub (canonicalSignerSet_subset h he)
  · exact (nodup_firstOfSource _ []).1.sublist ((take_sublist _ _).filterMap _)
  · have hrow := (mem_insertionSort _).mp ((firstOfSource_sublist _ _).subset (mem_of_mem_take hr))
    obtain ⟨v, hv, rfl⟩ := mem_map.mp hrow
    exact ⟨v, mem_of_mem_filter (mem_of_mem_filter hv), rfl, rfl⟩

def lowerCase (t : Text) : Text := t.map Char.toLower

/-- Two keys of one source and one of another. -/
def threeKeys : List Validator := [⟨['A'], some ['s'], 5⟩, ⟨['b'], some ['s'], 7⟩, ⟨['c'], some ['t'], 4⟩]

theorem signers_stable_recased :
    (∀ V ∈ [[⟨['B'], ['2']⟩, ⟨['a'], ['1']⟩], [⟨['B'], ['2']⟩]],
      canonicalSignerSet lowerCase V [['b'], ['a']] (some 1) =
        canonicalSignerSet lowerCase [⟨['A'], ['1']⟩, ⟨['b'], ['2']⟩] [['b'], ['a']] (some 1)) ∧
    (resolveResponsibleSet lowerCase id threeKeys (fun _ => true) (some 3) [] (some 2) true none).length = 2 ∧
    OnePerSource lowerCase threeKeys
      (resolveResponsibleSet lowerCase id threeKeys (fun _ => true) (some 3) [] (some 2) true none) := by
  have hkeys : OnePerKey lowerCase [⟨['A'], ['1']⟩, ⟨['b'], ['2']⟩] := by unfold OnePerKey; decide
  have h := fun redundancy => signers_stable id [['b'], ['a']] redundancy none _ hkeys threeKeys
    (fun _ => true) (some 3) []
  refine ⟨?_, by decide +kernel, (h (some 2)).2.2⟩
  simp only [forall_mem_cons]
  exact ⟨(h (some 1)).1 _ (by unfold Within; decide +kernel) (by unfold Within; decide +kernel),
    (h (some 1)).2.1 _ (by unfold Within; decide +kernel) (by decide +kernel), fun _ h => nomatch h⟩

end XChainIndexer.Attest.Signers
