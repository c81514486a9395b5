/-
# `Py` — the Python values the service handles

The parts of the language the modelled code computes with: strings as code
points, the numbers and containers a JSON document decodes to, and the
exceptions the code raises or catches.

**Strings.**  A code point is a Unicode scalar value.  A lone surrogate, which a
`\u` escape of a document can spell, is none: such strings are left out.

**Numbers.**  An `int` is an integer.  A `float` is the rational a double has, an
infinity or a NaN.  What arithmetic and conversion give is rounded to the nearest
double, and past their range to an infinity (`PyFloat.ofExact`), where an `int`
cannot be converted (`PyNum.toFloat`).  The sign of a zero is not kept.

**Exceptions.**  Each class the code names is a constructor; `other` is every
remaining subclass of `Exception`, and `baseException` stands for the classes
outside `Exception` (`SystemExit`, `KeyboardInterrupt`).  A subclass of
`ValueError` that has no constructor is a `valueError`, `UnicodeDecodeError` among
them.
-/
import HandBrakeEncoder.Lib.Binary64

namespace HandBrakeEncoder

/-- A Python `str`: its code points. -/
abbrev PyStr := List Char

/-! ## Numbers -/

/-- A Python `float`. -/
inductive PyFloat
  | finite (q : ℚ)
  | posInf
  | negInf
  | nan
  deriving DecidableEq

/-- Half way from the largest double to `2 ^ 1024`: from here on a value rounds out of range. -/
def floatLimit : ℚ := (2 ^ 54 - 1) * 2 ^ 970

/-- The float nearest to an exact result, an infinity past the range. -/
def PyFloat.ofExact (q : ℚ) : PyFloat :=
  if floatLimit ≤ q then .posInf
  else if q ≤ -floatLimit then .negInf
  else .finite (Binary64.round q)

/-- `x * k` for a positive finite `k`. -/
def PyFloat.mul (x : PyFloat) (k : ℚ) : PyFloat :=
  match x with
  | .finite q => .ofExact (q * k)
  | x => x

/-- `a < b`; a NaN compares false. -/
def PyFloat.lt : PyFloat → PyFloat → Bool
  | .finite p, .finite q => p < q
  | .finite _, .posInf => true
  | .negInf, .finite _ => true
  | .negInf, .posInf => true
  | _, _ => false

/-- `min(a, b)`: the first argument unless the second is smaller. -/
def PyFloat.min (a b : PyFloat) : PyFloat := if b.lt a then b else a

/-- What `isinstance(v, (int, float))` lets through; a `bool` is an `int`. -/
inductive PyNum
  | int (n : ℤ)
  | float (x : PyFloat)
  deriving DecidableEq

/-- The exact value, for comparisons: Python compares `int` and `float` exactly. -/
def PyNum.exact : PyNum → PyFloat
  | .int n => .finite n
  | .float x => x

def PyNum.lt (a b : PyNum) : Bool := a.exact.lt b.exact

/-! ## Exceptions -/

inductive PyExc
  | jsonDecodeError (msg : PyStr)
  | recursionError
  | valueError (msg : PyStr)
  | overflowError
  | osError (strerror : PyStr)
  | timeoutExpired
  | handBrakeCancelled (msg : PyStr)
  | handBrakeError (msg : PyStr)
  | pathNotAllowed (msg : PyStr)
  | sourceNotFound (msg : PyStr)
  | presetError (msg : PyStr)
  | queueFull (msg : PyStr)
  | other (msg : PyStr)
  | baseException (msg : PyStr)
  deriving DecidableEq

/-- `except Exception` catches it. -/
def PyExc.isException : PyExc → Bool
  | .baseException _ => false
  | _ => true

/-- `except ValueError` catches it. -/
def PyExc.isValueError : PyExc → Bool
  | .jsonDecodeError _ | .valueError _ | .pathNotAllowed _ | .presetError _ => true
  | _ => false

/-- Not `HandBrakeCancelled`: an exception of the language or of any other class. -/
def external : PyExc → Bool
  | .handBrakeCancelled _ => false
  | _ => true

/-- `str(exc)`, for the classes of the service and of `ValueError`.  For the others it stands in for
a text the interpreter composes: of an `OSError` only the `strerror` is kept, not the number and the
file name before and after it. -/
def PyExc.str : PyExc → PyStr
  | .jsonDecodeError msg | .valueError msg | .osError msg | .handBrakeCancelled msg
  | .handBrakeError msg | .pathNotAllowed msg | .sourceNotFound msg | .presetError msg
  | .queueFull msg | .other msg | .baseException msg => msg
  | .recursionError => "maximum recursion depth exceeded".toList
  | .overflowError => "int too large to convert to float".toList
  | .timeoutExpired => "timed out".toList

/-- A block that may raise ran through: so did each of its statements. -/
theorem except_bind_ok {α β : Type} {x : Except PyExc α} {f : α → Except PyExc β} {b : β} :
    x >>= f = .ok b ↔ ∃ a, x = .ok a ∧ f a = .ok b := by
  cases x with
  | error e => exact ⟨nofun, fun ⟨_, h, _⟩ => nomatch h⟩
  | ok a => exact ⟨fun h => ⟨a, rfl, h⟩, fun ⟨_, h, hf⟩ => Except.ok.inj h ▸ hf⟩

/-- `float(x)` and every conversion Python makes on the way to one.  A double is itself. -/
def PyNum.toFloat : PyNum → Except PyExc PyFloat
  | .int n =>
      if floatLimit ≤ |(n : ℚ)| then .error .overflowError else .ok (.ofExact n)
  | .float (.finite q) => .ok (.ofExact q)
  | .float x => .ok x

/-- `math.isfinite(x)`. -/
def PyNum.isFinite (x : PyNum) : Except PyExc Bool :=
  match x.toFloat with
  | .ok (.finite _) => .ok true
  | .ok _ => .ok false
  | .error e => .error e

/-- `int(x)` of a finite number: truncation towards zero. -/
def PyNum.truncate : PyNum → ℤ
  | .int n => n
  | .float (.finite q) => q.num.tdiv q.den
  | .float _ => 0

/-! ## JSON documents -/

/-- What `json.loads` returns.  An object is the items of a `dict`, keys distinct. -/
inductive JVal
  | null
  | bool (b : Bool)
  | num (x : PyNum)
  | str (s : PyStr)
  | arr (xs : List JVal)
  | obj (fields : List (PyStr × JVal))

abbrev JDict := List (PyStr × JVal)

namespace JDict

/-- `key in d`. -/
def has (d : JDict) (key : String) : Bool := d.any (fun kv => kv.1 == key.toList)

/-- `d.get(key)`, with `None` for a missing key. -/
def get (d : JDict) (key : String) : JVal := (d.lookup key.toList).getD .null

end JDict

/-- The number `isinstance(v, (int, float))` accepts `v` as. -/
def JVal.num? : JVal → Option PyNum
  | .num x => some x
  | .bool b => some (.int (if b then 1 else 0))
  | _ => none

/-- `isinstance(v, bool)`. -/
def JVal.isBool : JVal → Bool
  | .bool _ => true
  | _ => false

/-- `isinstance(v, dict)`, with the `dict`. -/
def JVal.dict? : JVal → Option JDict
  | .obj d => some d
  | _ => none

/-- `isinstance(v, str)`, with the string. -/
def JVal.str? : JVal → Option PyStr
  | .str s => some s
  | _ => none

/-- The value of a finite number. -/
def PyNum.value : PyNum → ℚ
  | .int n => n
  | .float (.finite q) => q
  | .float _ => 0

/-- A number a double can hold, infinities and NaN excluded. -/
def PyNum.InRange : PyNum → Prop
  | .int n => |(n : ℚ)| < floatLimit
  | .float (.finite q) => |q| < floatLimit
  | .float _ => False

mutual
/-- Every number in the document is finite and in the range of a double. -/
def JVal.InRange : JVal → Prop
  | .num x => x.InRange
  | .arr xs => JVal.InRangeList xs
  | .obj d => JVal.InRangeFields d
  | .null | .bool _ | .str _ => True
def JVal.InRangeList : List JVal → Prop
  | [] => True
  | v :: vs => v.InRange ∧ JVal.InRangeList vs
def JVal.InRangeFields : List (PyStr × JVal) → Prop
  | [] => True
  | kv :: kvs => kv.2.InRange ∧ JVal.InRangeFields kvs
end

/-- `bool(v)`. -/
def JVal.truthy : JVal → Bool
  | .null => false
  | .bool b => b
  | .num x => x.exact ≠ .finite 0
  | .str s => s ≠ []
  | .arr xs => !xs.isEmpty
  | .obj d => !d.isEmpty

/-! ### `repr` and `str` -/

/-- The tables `repr` reads: which characters past ASCII print, and how a float is written. -/
structure PyRepr where
  printable : Char → Bool
  float : PyFloat → PyStr

/-- ASCII, and no document with a float in it. -/
def sampleRepr : PyRepr where
  printable c := ' ' ≤ c && c ≤ '~'
  float _ := "0.0".toList

/-- `n` in hexadecimal, at least so many digits. -/
def hexDigits (width n : Nat) : PyStr :=
  let digits := Nat.toDigits 16 n
  List.replicate (width - digits.length) '0' ++ digits

/-- One character inside the quotes of a `repr`. -/
def PyRepr.char (R : PyRepr) (quote c : Char) : PyStr :=
  if c = quote ∨ c = '\\' then ['\\', c]
  else if c = '\t' then ['\\', 't']
  else if c = '\n' then ['\\', 'n']
  else if c = '\r' then ['\\', 'r']
  else if c.toNat < 32 ∨ c.toNat = 127 then ['\\', 'x'] ++ hexDigits 2 c.toNat
  else if c.toNat < 127 ∨ R.printable c then [c]
  else if c.toNat < 256 then ['\\', 'x'] ++ hexDigits 2 c.toNat
  else if c.toNat < 65536 then ['\\', 'u'] ++ hexDigits 4 c.toNat
  else ['\\', 'U'] ++ hexDigits 8 c.toNat

/-- `repr` of a `str`: single quotes unless that would need an escape and double ones not. -/
def PyRepr.str (R : PyRepr) (s : PyStr) : PyStr :=
  let quote := if '\'' ∈ s ∧ '"' ∉ s then '"' else '\''
  [quote] ++ s.flatMap (R.char quote) ++ [quote]

def commaSep (texts : List PyStr) : PyStr := List.intercalate [',', ' '] texts

/-- `repr` of a list of strings. -/
def PyRepr.strs (R : PyRepr) (ss : List PyStr) : PyStr := ['['] ++ commaSep (ss.map R.str) ++ [']']

mutual
/-- `repr` of a document. -/
def PyRepr.val (R : PyRepr) : JVal → PyStr
  | .null => "None".toList
  | .bool b => (if b then "True" else "False").toList
  | .num (.int n) => (toString n).toList
  | .num (.float x) => R.float x
  | .str s => R.str s
  | .arr xs => ['['] ++ commaSep (R.vals xs) ++ [']']
  | .obj d => ['\x7b'] ++ commaSep (R.fields d) ++ ['\x7d']
def PyRepr.vals (R : PyRepr) : List JVal → List PyStr
  | [] => []
  | v :: vs => R.val v :: R.vals vs
def PyRepr.fields (R : PyRepr) : List (PyStr × JVal) → List PyStr
  | [] => []
  | kv :: kvs => (R.str kv.1 ++ [':', ' '] ++ R.val kv.2) :: R.fields kvs
end

/-- `str(v)`. -/
def PyRepr.toStr (R : PyRepr) : JVal → PyStr
  | .str s => s
  | v => R.val v

/-! ### What the range gives -/

/-- In the range a result is the nearest double. -/
theorem PyFloat.ofExact_inRange {q : ℚ} (h : |q| < floatLimit) :
    PyFloat.ofExact q = .finite (Binary64.round q) := by
  obtain ⟨hlow, hhigh⟩ := abs_lt.mp h
  rw [ofExact, if_neg (not_le.mpr hhigh), if_neg (not_le.mpr hlow)]

/-- The value of a finite one is a double. -/
def PyFloat.Rounded : PyFloat → Prop
  | .finite q => Binary64.round q = q
  | .posInf | .negInf | .nan => True

theorem PyFloat.ofExact_rounded (q : ℚ) : (PyFloat.ofExact q).Rounded := by
  rw [ofExact]
  split
  · trivial
  · split
    · trivial
    · exact Binary64.round_of_isDouble (Binary64.round_isDouble q)

/-- A conversion gives a double. -/
theorem PyNum.toFloat_rounded {x : PyNum} {y : PyFloat} (h : x.toFloat = .ok y) : y.Rounded := by
  cases x with
  | int n =>
      rw [PyNum.toFloat] at h
      split at h
      · cases h
      · cases h
        exact PyFloat.ofExact_rounded _
  | float x =>
      cases x with
      | finite q =>
          cases h
          exact PyFloat.ofExact_rounded q
      | posInf | negInf | nan =>
          cases h
          trivial

theorem PyNum.InRange.toFloat {x : PyNum} (h : x.InRange) :
    x.toFloat = .ok (.finite (Binary64.round x.value)) := by
  match x, h with
  | .int n, h =>
      rw [PyNum.toFloat, if_neg (not_le.mpr h), PyFloat.ofExact_inRange h]
      rfl
  | .float (.finite q), h =>
      rw [PyNum.toFloat, PyFloat.ofExact_inRange h]
      rfl

theorem PyNum.InRange.isFinite {x : PyNum} (h : x.InRange) : x.isFinite = .ok true := by
  simp [PyNum.isFinite, h.toFloat]

theorem JVal.InRangeFields.lookup : ∀ {d : JDict} {key : PyStr} {v : JVal},
    JVal.InRangeFields d → d.lookup key = some v → v.InRange
  | (k, w) :: d, key, v, h, hv => by
      simp only [List.lookup_cons] at hv
      obtain ⟨hw, hd⟩ := h
      split at hv
      · cases hv
        exact hw
      · exact JVal.InRangeFields.lookup hd hv

theorem JVal.InRangeFields.get {d : JDict} (h : JVal.InRangeFields d) (key : String) :
    (d.get key).InRange := by
  rw [JDict.get]
  cases hv : d.lookup key.toList with
  | none => simp [JVal.InRange]
  | some v => exact h.lookup hv

theorem hundred_lt_floatLimit : 100 < floatLimit :=
  calc (100 : ℚ) ≤ 100 * 2 ^ 970 := le_mul_of_one_le_right (by norm_num) (one_le_pow₀ (by norm_num))
    _ < (2 ^ 54 - 1) * 2 ^ 970 := mul_lt_mul_of_pos_right (by norm_num) (by positivity)

/-- A `bool` is the integer 0 or 1, well inside the range. -/
theorem PyNum.inRange_of_bool (b : Bool) : (PyNum.int (if b then 1 else 0)).InRange := by
  have := hundred_lt_floatLimit
  cases b <;> simp [PyNum.InRange] <;> linarith

theorem JVal.InRange.num? {v : JVal} {x : PyNum} (h : v.InRange) (hx : v.num? = some x) :
    x.InRange := by
  match v, h, hx with
  | .num _, h, hx =>
      cases hx
      simpa [JVal.InRange] using h
  | .bool b, _, hx =>
      cases hx
      exact PyNum.inRange_of_bool b

theorem JVal.InRange.dict? {v : JVal} {d : JDict} (h : v.InRange) (hd : v.dict? = some d) :
    JVal.InRangeFields d := by
  match v, h, hd with
  | .obj _, h, hd =>
      cases hd
      simpa [JVal.InRange] using h

end HandBrakeEncoder
