import Mathlib.Tactic

/-! # Names and their ids

The tables `index_tickers` and `index_addresses` map the names the wire carries to dense ids
(`db/index_tables/tickers.js`, `db/index_tables/addresses.js`). A text is a list of code points. How
MariaDB and JavaScript fold letter case is not part of the program; it is the parameter `Collation`.

`createTicker` and `createAddress` are the get-or-create lookups as the block transaction runs them:
a `^id` reference resolves to a row of the deterministic set and is never interned, any other name
resolves to the lowest matching row and is interned under `MAX(id) + 1` when there is none. -/

namespace XChainIndexer.IndexTables

abbrev Text := List Char

instance : LawfulBEq Text := inferInstance

/-- The case folding of the runtime and of the database. -/
structure Collation where
  /-- `String.prototype.toLowerCase`. -/
  toLowerCase : Text → Text
  /-- `LOWER` on a `utf8mb4` column. -/
  lower : Text → Text
  /-- The sort key of `utf8_general_ci`, trailing spaces included. -/
  generalCi : Text → Text

/-- A row of `index_tickers` or `index_addresses`; `blockIndex` is `none` for an id assigned outside
block processing. -/
structure IndexRow where
  id : ℕ
  name : Text
  blockIndex : Option ℕ
deriving DecidableEq

structure Names where
  tickers : List IndexRow
  addresses : List IndexRow

/-- What a lookup or an insert reads besides the tables. -/
structure Ctx where
  collation : Collation
  blockIndex : ℕ
  /-- The widened ticker key is in force at this block. -/
  tickNormalizeActive : Bool
  /-- The refresh phase of a rollback resolves names and assigns none. -/
  suppressIndexIdCreation : Bool

/-- A text without its trailing spaces: a `PAD SPACE` collation compares these. -/
def rtrim (t : Text) : Text := (t.reverse.dropWhile (· = ' ')).reverse

/-- The digits of `/^[1-9][0-9]*$/`, read as a number. -/
def canonicalId : Text → Option ℕ
  | [] => none
  | c :: t => if '1' ≤ c ∧ c ≤ '9' ∧ t.all (fun d => '0' ≤ d ∧ d ≤ '9') then
      some ((c :: t).foldl (fun n d => 10 * n + (d.toNat - '0'.toNat)) 0)
    else none

/-- The canonical id of a `^id` reference. -/
def caretId : Text → Option ℕ
  | '^' :: t => canonicalId t
  | _ => none

/-- `SELECT id … WHERE id=? AND block_index IS NOT NULL`. -/
def deterministicId (rows : List IndexRow) (id : ℕ) : Option ℕ :=
  (rows.find? fun r => r.id = id ∧ r.blockIndex.isSome).map IndexRow.id

/-- The lowest id among the rows that satisfy `p`. -/
def lowestId (rows : List IndexRow) (p : IndexRow → Bool) : Option ℕ :=
  ((rows.filter p).map IndexRow.id).min?

/-- `MAX(id) + 1`, and `1` on an empty table. -/
def nextId (rows : List IndexRow) : ℕ := (rows.map IndexRow.id).foldl max 0 + 1

/-! ### Tickers -/

def getTickerId (c : Ctx) (n : Names) (tick : Text) : Option ℕ :=
  match caretId tick with
  | some id => deterministicId n.tickers id
  | none =>
    let lc := c.collation.toLowerCase tick
    lowestId n.tickers fun r => rtrim (c.collation.lower r.name) = rtrim lc

/-- The former `tick(200)` unique key, kept below the activation of the widened one. -/
def hasLegacyTickPrefixCollision (c : Ctx) (n : Names) (tick : Text) : Bool :=
  !c.tickNormalizeActive && n.tickers.any fun r => rtrim (r.name.take 200) = rtrim (tick.take 200)

/-- `INSERT IGNORE`: a name the unique key already holds is skipped. -/
def insertTicker (rows : List IndexRow) (row : IndexRow) : List IndexRow :=
  if rows.any fun r => rtrim r.name = rtrim row.name then rows else rows ++ [row]

def createTicker (c : Ctx) (n : Names) (tick : Text) : Names × Option ℕ :=
  if tick = [] then (n, none)
  else if tick.head? = some '^' then (n, getTickerId c n tick)
  else match getTickerId c n tick with
    | some id => (n, some id)
    | none =>
      if c.suppressIndexIdCreation then (n, none)
      else if hasLegacyTickPrefixCollision c n tick then (n, none)
      else
        let row := { id := nextId n.tickers, name := tick, blockIndex := some c.blockIndex }
        let n' := { n with tickers := insertTicker n.tickers row }
        (n', getTickerId c n' tick)

/-- The id of the ticker with these bytes. -/
def exactTickerId (n : Names) (tick : Text) : Option ℕ :=
  (n.tickers.find? fun r => rtrim r.name = rtrim tick).map IndexRow.id

/-- The case-exact twin of `createTicker`. -/
def createTickerExact (c : Ctx) (n : Names) (tick : Text) : Names × Option ℕ :=
  if tick = [] then (n, none)
  else if tick.head? = some '^' then (n, (caretId tick).bind (deterministicId n.tickers))
  else match exactTickerId n tick with
    | some id => (n, some id)
    | none =>
      if c.suppressIndexIdCreation then (n, none)
      else if hasLegacyTickPrefixCollision c n tick then (n, none)
      else
        let row := { id := nextId n.tickers, name := tick, blockIndex := some c.blockIndex }
        let n' := { n with tickers := insertTicker n.tickers row }
        (n', exactTickerId n' tick)

/-! ### Addresses -/

/-- The UTF-16 code units of a code point. -/
def utf16Units (ch : Char) : ℕ := if 0xFFFF < ch.toNat then 2 else 1

/-- `address.substring(0, 120)`, which counts UTF-16 units. A supplementary code point cut in half
leaves a lone surrogate, which the driver binds as `U+FFFD`. -/
def substringUnits : ℕ → Text → Text
  | _, [] => []
  | 0, _ => []
  | k + 1, ch :: t =>
    if utf16Units ch = 1 then ch :: substringUnits k t
    else if k = 0 then [Char.ofNat 0xFFFD] else ch :: substringUnits (k - 1) t

/-- No code point of the supplementary planes. -/
def fitsUtf8mb3 (t : Text) : Bool := t.all fun ch => ch.toNat ≤ 0xFFFF

def getAddressId (c : Ctx) (n : Names) (address : Text) : Option ℕ :=
  match caretId address with
  | some id => deterministicId n.addresses id
  | none =>
    if !fitsUtf8mb3 address then none
    else lowestId n.addresses fun r => c.collation.generalCi r.name = c.collation.generalCi address

/-- `INSERT IGNORE` under the unique key of `index_addresses`. -/
def insertAddress (c : Ctx) (rows : List IndexRow) (row : IndexRow) : List IndexRow :=
  if rows.any fun r => c.collation.generalCi r.name = c.collation.generalCi row.name then rows
  else rows ++ [row]

def createAddress (c : Ctx) (n : Names) (address : Text) : Names × Option ℕ :=
  if address = [] then (n, none)
  else
    let address := substringUnits 120 address
    if !fitsUtf8mb3 address then (n, none)
    else if address.head? = some '^' then (n, getAddressId c n address)
    else match getAddressId c n address with
      | some id => (n, some id)
      | none =>
        if c.suppressIndexIdCreation then (n, none)
        else
          let row := { id := nextId n.addresses, name := address, blockIndex := some c.blockIndex }
          let n' := { n with addresses := insertAddress c n.addresses row }
          (n', getAddressId c n' address)

/-- A `^id` reference to a row of the deterministic set becomes its address; anything else is returned
unchanged. -/
def resolveAddressRef (n : Names) (value : Text) : Text :=
  match (caretId value).bind fun id => n.addresses.find? fun r => r.id = id ∧ r.blockIndex.isSome with
  | some r => if r.name = [] then value else r.name
  | none => value

end XChainIndexer.IndexTables
