import Sigil.Json.Double

/-!
# Json — documents as values

Objects keep the order in which their keys came.  A whole number and a fraction stay apart in what
is written, but `Json.same` compares by value: `1`, `1.0` and `true` are the same.  A whole number
of any size can be a value; `isShort` tells which documents can also be read and shown, digit by
digit.
-/

namespace Sigil

/-- A document. -/
inductive Json where
  /-- Nothing. -/
  | null
  /-- A truth value. -/
  | bool (b : Bool)
  /-- A whole number of any size. -/
  | int (i : Int)
  /-- A number written with a point or an exponent. -/
  | double (d : Double)
  /-- A string. -/
  | str (s : String)
  /-- A list. -/
  | arr (items : List Json)
  /-- Keys and values, in order. -/
  | obj (entries : List (String × Json))
deriving Inhabited, Repr

namespace Json

/-- The value of a key. -/
def get? (entries : List (String × Json)) (key : String) : Option Json := entries.lookup key

/-- Puts a value under a key: a present key keeps its place, a new one goes to the end. -/
def put (entries : List (String × Json)) (key : String) (value : Json) : List (String × Json) :=
  match entries with
  | [] => [(key, value)]
  | (k, v) :: rest => if k = key then (k, value) :: rest else (k, v) :: put rest key value

/-- A number as a double or a whole number; truth values count as `0` and `1`. -/
def number? : Json → Option (Int ⊕ Double)
  | .bool b => some (.inl (if b then 1 else 0))
  | .int i => some (.inl i)
  | .double d => some (match d.toInt? with
    | some i => .inl i
    | none => .inr d)
  | _ => none

/-- Two numbers are equal. -/
def sameNumber : Int ⊕ Double → Int ⊕ Double → Bool
  | .inl i, .inl j => i = j
  | .inr d, .inr e => d.same e
  | _, _ => false

mutual

/-- **Equality by value.**  Objects are the same whatever the order of their keys. -/
def same : Json → Json → Bool
  | .null, .null => true
  | .str s, .str t => s = t
  | .arr xs, .arr ys => sameItems xs ys
  | .obj xs, .obj ys => xs.length = ys.length && sameEntries xs ys
  | x, y =>
    match x.number?, y.number? with
    | some m, some n => sameNumber m n
    | _, _ => false

/-- Equality of lists. -/
def sameItems : List Json → List Json → Bool
  | [], [] => true
  | x :: xs, y :: ys => same x y && sameItems xs ys
  | _, _ => false

/-- Every entry of the first object is in the second. -/
def sameEntries : List (String × Json) → List (String × Json) → Bool
  | [], _ => true
  | (k, v) :: rest, ys =>
    (match ys.lookup k with
    | some w => same v w
    | none => false) && sameEntries rest ys

end

/-- Counts as true: neither nothing, nor zero, nor empty. -/
def truthy : Json → Bool
  | .null => false
  | .bool b => b
  | .int i => i ≠ 0
  | .double d => !d.isZero
  | .str s => s ≠ ""
  | .arr items => !items.isEmpty
  | .obj entries => !entries.isEmpty

/-- A list or an object. -/
def isCollection : Json → Bool
  | .arr _ | .obj _ => true
  | _ => false

/-- Nothing. -/
def isNull : Json → Bool
  | .null => true
  | _ => false

/-! ## Long numbers -/

/-- The most digits with which a whole number can be read or shown. -/
def digitLimit : Nat := 4300

/-- A whole number has no more digits than can be read or shown. -/
def isShortInt (i : Int) : Bool := (Nat.toDigits 10 i.natAbs).length ≤ digitLimit

mutual

/-- **All whole numbers in a document can be read and shown.** -/
def isShort : Json → Bool
  | .int i => isShortInt i
  | .arr items => areShort items
  | .obj entries => haveShort entries
  | _ => true

/-- All items can be read and shown. -/
def areShort : List Json → Bool
  | [] => true
  | x :: rest => isShort x && areShort rest

/-- All values of an object can be read and shown. -/
def haveShort : List (String × Json) → Bool
  | [] => true
  | (_, v) :: rest => isShort v && haveShort rest

end

end Json

end Sigil
