import XChainIndexer.Tokens.Numerals

/-! # ISSUE and the rows it leaves

An ISSUE names fields of a token as texts (`actions/issue`). A valid one leaves a row in `issues`, the
texts normalized (`db/database/normalize.js`), and the state of a token is the fold of these rows
(`db/issues/token_info.js`); the empty fields of a later ISSUE are filled in from it. The rules are a
ladder in which the first check that fires gives the verdict (`token_state.js`, `supply_rules.js`,
`edit_rules.js`).

The checks that read none of the fields here (the tick's name, the owner, addresses, lists,
controllers, the bridge, memos and fees) are answers that the ISSUE carries to their place in the
ladder. -/

namespace XChainIndexer.Tokens.Issues

open IndexTables Bcmath Tokens.Numerals

/-! ### Fields -/

inductive Field
  | maxSupply
  | maxMint
  | description
  | callbackBlock
  | callbackTick
  | callbackAmount
  | mintAddressMax
  | mintStartBlock
  | mintStopBlock
deriving DecidableEq

inductive Lock
  | maxSupply
  | mint
  | mintSupply
  | maxMint
  | description
  | sleep
  | callback
deriving DecidableEq

def Field.name : Field → String
  | maxSupply => "MAX_SUPPLY"
  | maxMint => "MAX_MINT"
  | description => "DESCRIPTION"
  | callbackBlock => "CALLBACK_BLOCK"
  | callbackTick => "CALLBACK_TICK"
  | callbackAmount => "CALLBACK_AMOUNT"
  | mintAddressMax => "MINT_ADDRESS_MAX"
  | mintStartBlock => "MINT_START_BLOCK"
  | mintStopBlock => "MINT_STOP_BLOCK"

def Lock.name : Lock → String
  | maxSupply => "LOCK_MAX_SUPPLY"
  | mint => "LOCK_MINT"
  | mintSupply => "LOCK_MINT_SUPPLY"
  | maxMint => "LOCK_MAX_MINT"
  | description => "LOCK_DESCRIPTION"
  | sleep => "LOCK_SLEEP"
  | callback => "LOCK_CALLBACK"

/-- `fieldList['LOCK']`, without the lock of the bridge fields. -/
def Lock.all : List Lock :=
  [.maxSupply, .mint, .mintSupply, .maxMint, .description, .sleep, .callback]

/-- The wire texts of an ISSUE; an empty text is absent. -/
structure Issue where
  source : Text
  decimals : Option Text
  mintSupply : Option Text
  transferSupply : Option Text
  field : Field → Option Text
  lock : Lock → Option Text
  /-- The decimals of `CALLBACK_TICK`, `0` if it is no token. -/
  callbackDecimals : Option ℤ
  /-- The verdict of the rules before the field formats. -/
  earlyError : Option String
  /-- The verdict of the sleep, owner and escrow rules. -/
  ownerError : Option String
  /-- The verdict of the address rules of `TRANSFER` and `TRANSFER_SUPPLY`. -/
  transferError : Option String
  /-- The verdict of the rules after the locked edits. -/
  lateError : Option String

/-- An ISSUE that names no field and that no other rule refuses. -/
def Issue.bare (source : Text) : Issue where
  source := source
  decimals := none
  mintSupply := none
  transferSupply := none
  field _ := none
  lock _ := none
  callbackDecimals := some 0
  earlyError := none
  ownerError := none
  transferError := none
  lateError := none

/-- What a valid ISSUE stores. -/
structure Row where
  decimals : Option Text
  field : Field → Option Text
  lock : Lock → Option Text

/-- `tokenInfo`. -/
structure Info where
  /-- `none` is `NaN`. -/
  decimals : Option ℤ
  field : Field → Option Text
  lock : Lock → Option Text

/-- The flag days that the rules ask for. -/
structure Gates where
  amountRepresentability : Bool
  lockNullPriorUnset : Bool
  lockMaxSupplyExact : Bool
  uncappedMaxSupplyZero : Bool
  issueMintSupplyCumulativeCap : Bool
  tokenSupplyRepresentation : Bool

def Gates.all : Gates := ⟨true, true, true, true, true, true⟩

/-! ### Stored rows -/

/-- `DECIMALS` outside of the range is not stored; the comparison converts the text. -/
def storedDecimals (js : Js) (t : Text) : Option Text :=
  match js.number t with
  | none => none
  | some v => if v < 0 ∨ 18 < v then none else some t

def storedField (js : Js) (f : Field) (t : Text) : Option Text :=
  match f with
  | .description => some t
  | .callbackTick => some (js.ticker t)
  | .callbackBlock | .mintStartBlock | .mintStopBlock =>
    if js.isNumeric t && !js.exceedsUnsigned t then some t else none
  | .maxSupply | .maxMint | .callbackAmount | .mintAddressMax =>
    if js.isNumeric t then some t else none

/-- The value of a lock text, if it is 0 or 1. -/
def lockValue (js : Js) (t : Text) : Option Bool :=
  if js.isNumeric t then
    if js.parseInt t = some 0 then some false
    else if js.parseInt t = some 1 then some true
    else none
  else none

/-- A lock is read back as the text of its column. -/
def lockText (locked : Bool) : Text := if locked then ['1'] else ['0']

def normalizeDataValues (js : Js) (i : Issue) : Row where
  decimals := i.decimals.bind (storedDecimals js)
  field f := (i.field f).bind (storedField js f)
  lock l := ((i.lock l).bind (lockValue js)).map lockText

/-! ### The state of a token -/

/-- `DECIMALS` of a row, `0` where it is absent. -/
def rowDecimals (js : Js) (row : Row) : Option ℤ :=
  match row.decimals with
  | none => some 0
  | some t => js.parseInt t

/-- `data[key] > value` skips the value; a comparison with `NaN` is false. -/
def foldDecimals : Option ℤ → Option ℤ → Option ℤ
  | some d, some v => if d > v then some d else some v
  | _, v => v

def foldRow (js : Js) (data : Info) (row : Row) : Info where
  decimals := foldDecimals data.decimals (rowDecimals js row)
  field f := (row.field f).or (data.field f)
  lock l := if data.lock l = some (lockText true) then data.lock l else (row.lock l).or (data.lock l)

def Info.empty : Info := ⟨none, fun _ => none, fun _ => none⟩

def foldRows (js : Js) (rows : List Row) : Info := rows.foldl (foldRow js) Info.empty

/-- `getTokenInfo`, without the supply. -/
def getTokenInfo (js : Js) (rows : List Row) : Option Info :=
  if rows.isEmpty then none else some (foldRows js rows)

def getTokenDecimalPrecision (rows : List Row) : ℕ := tokenDecimalPrecision (rows.map Row.decimals)

/-- `data['DECIMALS']` after the merge: a wire text or the folded number. -/
inductive Decimals
  | absent
  | text (t : Text)
  | folded (d : Option ℤ)

def mergedDecimals (info : Option Info) (i : Issue) : Decimals :=
  match i.decimals, info with
  | some t, _ => .text t
  | none, some info => .folded info.decimals
  | none, none => .absent

def Decimals.parseInt (js : Js) : Decimals → Option ℤ
  | absent => none
  | text t => js.parseInt t
  | folded d => d

/-- `Number`, if `isNumeric` accepts the value. -/
def Decimals.number (js : Js) : Decimals → Option ℚ
  | absent => none
  | text t => js.number t
  | folded d => d.map Int.cast

/-- The decimals that the `bc*` helpers take for their third argument. -/
def Decimals.scale (js : Js) (d : Decimals) : ℕ := ((d.parseInt js).getD 0).toNat

/-- `String(data['DECIMALS'])`. -/
def Decimals.string : Decimals → String
  | absent => "null"
  | text t => String.ofList t
  | folded none => "NaN"
  | folded (some d) => toString d

/-- `tokens.decimals` as `createToken` writes it; `none` is `NaN`, which no column takes. -/
def createTokenDecimals (js : Js) (d : Decimals) : Option ℤ :=
  match d.number js with
  | none => some 0
  | some v => if v < 0 ∨ 18 < v then some 0 else d.parseInt js

/-- `data[f]` after the merge. -/
def merged (info : Option Info) (i : Issue) (f : Field) : Option Text :=
  (i.field f).or (info.bind fun info => info.field f)

def mergedLock (info : Option Info) (i : Issue) (l : Lock) : Option Text :=
  (i.lock l).or (info.bind fun info => info.lock l)

/-! ### The ladder -/

/-- Whether a check fires, and its error. -/
structure Check where
  fires : Bool
  error : String

def firstError (checks : List Check) : Option String := (checks.find? Check.fires).map Check.error

/-- The verdict of rules that are not part of the model. -/
def answered (error : Option String) : List Check := error.toList.map fun e => ⟨true, e⟩

/-- The number of a field that may be absent. -/
def amount (js : Js) (t : Option Text) : ℚ := (t.map js.bcnum).getD 0

def formatCheck (js : Js) (g : Gates) (name : String) (decimals : Option ℤ) (value : Option Text) :
    Check where
  fires := value.any fun t => !isValidAmountFormat js g.amountRepresentability decimals t
  error := "invalid: " ++ name ++ " (format)"

/-- `tick_decimals`: those of the token, and of the ISSUE itself if it is the first. -/
def tickDecimals (js : Js) (info : Option Info) (i : Issue) : Option ℤ :=
  match info with
  | some info => info.decimals
  | none => (mergedDecimals none i).parseInt js

def widthCheck (name : String) (width : ℕ) (stored : Option Text) : Check where
  fires := stored.any fun t => decide (width < t.length)
  error := "invalid: " ++ name ++ " (length)"

def validateFieldFormats (js : Js) (g : Gates) (info : Option Info) (i : Issue) : List Check :=
  let decimals := tickDecimals js info i
  let stored := normalizeDataValues js i
  let format (f : Field) (decimals : Option ℤ) := formatCheck js g f.name decimals (i.field f)
  [format .maxSupply decimals, format .maxMint decimals,
    formatCheck js g "MINT_SUPPLY" decimals i.mintSupply,
    format .callbackAmount i.callbackDecimals, format .mintAddressMax decimals,
    format .mintStartBlock decimals, format .mintStopBlock decimals] ++
  Lock.all.map (fun l =>
    ⟨(i.lock l).any fun t => (lockValue js t).isNone, "invalid: " ++ l.name ++ " (format)"⟩) ++
  [widthCheck "DECIMALS" 2 stored.decimals,
    widthCheck "CALLBACK_BLOCK" 15 (stored.field .callbackBlock),
    widthCheck "MINT_START_BLOCK" 15 (stored.field .mintStartBlock),
    widthCheck "MINT_STOP_BLOCK" 15 (stored.field .mintStopBlock)]

/-- `value` is a wire text, and so is compared with the column's as a text. -/
def isValidLock (js : Js) (g : Gates) (prior : Option Text) (value : Text) : Bool :=
  match prior with
  | none => g.lockNullPriorUnset
  | some p => p = value || p = lockText false && js.number value = some 1

def validateOwnership (js : Js) (g : Gates) (info : Option Info) (i : Issue) : List Check :=
  answered i.ownerError ++
  Lock.all.map fun l =>
    ⟨info.any fun info => (i.lock l).any fun value => !isValidLock js g (info.lock l) value,
      "invalid: " ++ l.name ++ " (locked)"⟩

def minTokenSupply : ℚ := 1 / 10 ^ 18

def maxTokenSupply : ℚ := 10 ^ 21

/-- `supply` is what `getTokenSupply` answers. -/
def validateSupplyFields (js : Js) (g : Gates) (info : Option Info) (supply : ℚ) (i : Issue) :
    List Check :=
  let maxSupply := merged info i .maxSupply
  let cap := amount js maxSupply
  let lock := mergedLock info i .maxSupply
  let lockMaxSupplySet :=
    if g.lockMaxSupplyExact then lock.any fun t => decide (js.number t = some 1) else lock.isSome
  let decimals := mergedDecimals info i
  [⟨decide (0 < cap ∧ (cap < minTokenSupply ∨ maxTokenSupply < cap)), "invalid: MAX_SUPPLY (min/max)"⟩,
    ⟨decide (0 < cap ∧ cap < supply), "invalid: MAX_SUPPLY < SUPPLY"⟩,
    ⟨lockMaxSupplySet && (maxSupply.isNone || decide (cap < minTokenSupply)),
      "invalid: LOCK_MAX_SUPPLY (no max supply)"⟩,
    ⟨(decimals.number js).any fun v => decide (v < 0 ∨ 18 < v), "invalid: DECIMALS (min/max)"⟩,
    ⟨info.any fun info => decide (0 < supply ∧ decimals.string ≠ (Decimals.folded info.decimals).string),
      "invalid: DECIMALS (locked)"⟩]

/-- `tokenInfo[l] == 1`. -/
def locked (info : Option Info) (l : Lock) : Bool :=
  info.any fun info => info.lock l = some (lockText true)

def validateTransferFields (info : Option Info) (i : Issue) : List Check :=
  answered i.transferError ++
  [⟨i.mintSupply.isSome && locked info .mintSupply, "invalid: MINT_SUPPLY (locked)"⟩]

def validateMintSupplyCaps (js : Js) (g : Gates) (info : Option Info) (supply : ℚ) (i : Issue) :
    List Check :=
  let cap := amount js (merged info i .maxSupply)
  let mint := amount js i.mintSupply
  let addressMax := amount js (merged info i .mintAddressMax)
  let scale := (mergedDecimals info i).scale js
  let uncappedSupply := decide (cap ≤ 0) && g.uncappedMaxSupplyZero
  let projected := bcadd supply mint scale
  [⟨!uncappedSupply && i.mintSupply.isSome && decide (cap < mint), "invalid: MINT_SUPPLY > MAX_SUPPLY"⟩,
    ⟨!uncappedSupply && decide (0 < mint) && g.issueMintSupplyCumulativeCap &&
      decide (bcadd cap 0 scale < projected), "invalid: MINT_SUPPLY exceeds MAX_SUPPLY"⟩,
    ⟨!uncappedSupply && decide (0 < addressMax) && decide (cap < addressMax),
      "invalid: MINT_ADDRESS_MAX > MAX_SUPPLY"⟩,
    ⟨decide (0 < addressMax) && decide (addressMax < amount js (merged info i .maxMint)),
      "invalid: MINT_ADDRESS_MAX < MAX_MINT"⟩,
    ⟨decide (0 < mint) && g.tokenSupplyRepresentation &&
      decide (bcadd maxTokenSupply 0 scale < projected), "invalid: MINT_SUPPLY exceeds MAX_TOKEN_SUPPLY"⟩]

/-- The lock that protects a field. -/
def Field.lock? : Field → Option Lock
  | maxSupply => some .maxSupply
  | maxMint => some .maxMint
  | description => some .description
  | callbackBlock | callbackTick | callbackAmount => some .callback
  | mintAddressMax | mintStartBlock | mintStopBlock => none

/-- Whether the handler takes a text for another one than the effective value. The numeric fields are
compared through `String`, which makes a text of an absent value too. -/
def differs (f : Field) (effective : Option Text) (t : Text) : Bool :=
  match f with
  | .description | .callbackTick => decide (effective ≠ some t)
  | _ => decide (effective.getD "undefined".toList ≠ t)

/-- `tokenInfo[l]` is tested for its truth value, and every text that a column holds is true. -/
def lockedEdit (info : Option Info) (i : Issue) (f : Field) : Check where
  fires := info.any fun info =>
    (f.lock?.any fun l => (info.lock l).isSome) &&
      (merged (some info) i f).any fun t => differs f (info.field f) t
  error := "invalid: " ++ f.name ++ " (locked)"

def maxTokenDescription : ℕ := 250

/-- `String.prototype.length`. -/
def utf16Length (t : Text) : ℕ := (t.map fun c => if c.toNat < 65536 then 1 else 2).sum

def validateLockedEdits (info : Option Info) (i : Issue) : List Check :=
  [lockedEdit info i .maxSupply, lockedEdit info i .maxMint,
    ⟨(merged info i .description).any fun t =>
        decide (maxTokenDescription ≤ utf16Length t),
      "invalid: DESCRIPTION (length)"⟩,
    lockedEdit info i .description, lockedEdit info i .callbackBlock, lockedEdit info i .callbackTick,
    lockedEdit info i .callbackAmount]

def checks (js : Js) (g : Gates) (info : Option Info) (supply : ℚ) (i : Issue) : List Check :=
  answered i.earlyError ++ validateFieldFormats js g info i ++ validateOwnership js g info i ++
  validateSupplyFields js g info supply i ++ validateTransferFields info i ++
  validateMintSupplyCaps js g info supply i ++ validateLockedEdits info i ++ answered i.lateError

/-- The error an ISSUE is refused with. -/
def verdict (js : Js) (g : Gates) (info : Option Info) (supply : ℚ) (i : Issue) : Option String :=
  firstError (checks js g info supply i)

/-! ### Carrying an ISSUE out -/

/-- A tick's valid ISSUEs and the decimals on its `tokens` row, if it has one. -/
structure Token where
  rows : List Row
  decimals : Option ℤ

def Token.none : Token := ⟨[], Option.none⟩

/-- The token after an ISSUE, `none` if the write of its row fails and the block is aborted. -/
def issueToken (js : Js) (g : Gates) (supply : ℚ) (tok : Token) (i : Issue) : Option Token :=
  let info := getTokenInfo js tok.rows
  match verdict js g info supply i with
  | some _ => some tok
  | Option.none =>
    (createTokenDecimals js (mergedDecimals info i)).map fun decimals =>
      { rows := tok.rows ++ [normalizeDataValues js i], decimals := some decimals }

/-- An ISSUE, with the rules in force and the supply that its rules read. -/
structure Issuance where
  gates : Gates
  supply : ℚ
  issue : Issue

def step (js : Js) (tok : Token) (e : Issuance) : Option Token :=
  issueToken js e.gates e.supply tok e.issue

theorem foldRows_append (js : Js) (rows : List Row) (row : Row) :
    foldRows js (rows ++ [row]) = foldRow js (foldRows js rows) row := by
  rw [foldRows, List.foldl_append]
  rfl

variable {js : Js}

theorem getTokenInfo_of_ne {rows : List Row} (h : rows ≠ []) :
    getTokenInfo js rows = some (foldRows js rows) := by
  rw [getTokenInfo, if_neg (by simpa using h)]

section
variable {g : Gates} {supply : ℚ} {tok tok' : Token} {i : Issue}

theorem issueToken_of_valid (hv : verdict js g (getTokenInfo js tok.rows) supply i = Option.none)
    (h : issueToken js g supply tok i = some tok') :
    ∃ d, createTokenDecimals js (mergedDecimals (getTokenInfo js tok.rows) i) = some d ∧
      tok' = ⟨tok.rows ++ [normalizeDataValues js i], some d⟩ := by
  simp only [issueToken, hv, Option.map_eq_some_iff] at h
  obtain ⟨d, hd, rfl⟩ := h
  exact ⟨d, hd, rfl⟩

theorem issueToken_of_refused
    {error : String} (hv : verdict js g (getTokenInfo js tok.rows) supply i = some error)
    (h : issueToken js g supply tok i = some tok') : tok' = tok := by
  simp only [issueToken, hv, Option.some.injEq] at h
  exact h.symm

end

theorem firstError_eq_none {checks : List Check} :
    firstError checks = none ↔ ∀ c ∈ checks, c.fires = false := by
  simp [firstError]

theorem firstError_cons (c : Check) (checks : List Check) :
    firstError (c :: checks) = if c.fires then some c.error else firstError checks := by
  unfold firstError
  cases hc : c.fires <;> simp [hc]

/-- The error of a check that no other check shares is the verdict when it is the first to fire. -/
theorem firstError_eq_some_iff {before after : List Check} {c : Check}
    (h : ∀ b ∈ before ++ after, b.error ≠ c.error) : firstError (before ++ c :: after) = some c.error ↔
      (∀ b ∈ before, b.fires = false) ∧ c.fires := by
  induction before with
  | nil =>
    rw [List.nil_append, firstError_cons]
    cases hc : c.fires with
    | true => simp
    | false =>
      simp only [Bool.false_eq_true, if_false, and_false, iff_false]
      intro hafter
      obtain ⟨b, hb, he⟩ := Option.map_eq_some_iff.mp hafter
      exact h b (by simpa using List.mem_of_find?_eq_some hb) he
  | cons b before ih =>
    rw [List.cons_append, firstError_cons]
    have ih := ih fun b' hb' => h b' (by simp at hb' ⊢; tauto)
    cases hb : b.fires with
    | true => simp [hb, h b (by simp)]
    | false => simpa [hb] using ih

end XChainIndexer.Tokens.Issues
