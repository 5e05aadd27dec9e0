import Mathlib.Data.Nat.Digits.Lemmas
import Honker.Library.Fallible

namespace Honker.Jvm

open Fallible

section Values

/-- A Java string: its UTF-16 code units, paired surrogates or not. -/
abbrev Text := List UInt16

def ch (c : Char) : UInt16 := UInt16.ofNat c.toNat

def text (s : String) : Text := s.toList.map ch

abbrev Double := Float.Model

/-- The objects the codec tells apart; a map is the list of its entries in insertion order. -/
inductive Value
  | null
  | bool (b : Bool)
  | long (n : Int64)
  | double (d : Double)
  | float (f : Float32.Model)
  -- any other `Number`, and any other object, by the result of its `toString`
  | number (s : Text)
  | other (s : Text)
  | str (s : Text)
  | list (items : List Value)
  | map (entries : List (Text × Value))

/-- Null, `Boolean`, `Long`, `String`, `List` and `Map` with `String` keys, to any depth. -/
inductive Value.Plain : Value → Prop
  | null : Plain .null
  | bool (b : Bool) : Plain (.bool b)
  | long (n : Int64) : Plain (.long n)
  | str (s : Text) : Plain (.str s)
  | list {items : List Value} : (∀ v ∈ items, Plain v) → Plain (.list items)
  | map {entries : List (Text × Value)} : (entries.map Prod.fst).Nodup →
      (∀ e ∈ entries, Plain e.2) → Plain (.map entries)

mutual

/-- Whether a `Long` occurs anywhere in a value. -/
def Value.hasLong : Value → Bool
  | .long _ => true
  | .list items => itemsHaveLong items
  | .map entries => entriesHaveLong entries
  | _ => false

def itemsHaveLong : List Value → Bool
  | [] => false
  | v :: items => v.hasLong || itemsHaveLong items

def entriesHaveLong : List (Text × Value) → Bool
  | [] => false
  | (_, v) :: entries => v.hasLong || entriesHaveLong entries

end

end Values

section Encoder

def asciiDigit (d : ℕ) : UInt16 := UInt16.ofNat (48 + d)

/-- The digits of `Long.toString` without the sign. -/
def decimal (m : ℕ) : Text :=
  if m = 0 then [ch '0'] else (Nat.digits 10 m).reverse.map asciiDigit

def longToString (n : Int64) : Text :=
  if n.toInt < 0 then ch '-' :: decimal n.toInt.natAbs else decimal n.toInt.natAbs

/-- `x == Math.rint(x)`: true of the infinities and false of NaN. -/
def isIntegral : Float.Model.UnpackedFloat → Bool
  | .notANumber => false
  | .infinity _ => true
  | .zero _ => true
  | .finite _ mantissa exponent _ => 0 ≤ exponent || mantissa % 2 ^ (-exponent).toNat == 0

def hexDigit (d : ℕ) : UInt16 := if d < 10 then asciiDigit d else UInt16.ofNat (87 + d)

/-- One code unit of `quote`; the format is `\u%04x`. -/
def escape (c : UInt16) : Text :=
  if c = ch '"' then text "\\\""
  else if c = ch '\\' then text "\\\\"
  else if c = 0x08 then text "\\b"
  else if c = 0x0C then text "\\f"
  else if c = ch '\n' then text "\\n"
  else if c = ch '\r' then text "\\r"
  else if c = ch '\t' then text "\\t"
  else if c < 0x20 then
    text "\\u" ++ [hexDigit (c.toNat / 4096), hexDigit (c.toNat / 256 % 16),
      hexDigit (c.toNat / 16 % 16), hexDigit (c.toNat % 16)]
  else [c]

def quote (s : Text) : Text := ch '"' :: (s.flatMap escape ++ [ch '"'])

/-- `Double.toString` and `Float.toString`, which only numbers that are not integral reach. -/
structure FloatText where
  double : Double → Text
  float : Float32.Model → Text

variable (shown : FloatText)

mutual

def stringify : Value → Text
  | .null => text "null"
  | .str s => quote s
  | .double d =>
    if isIntegral d.unpack then longToString d.toInt64 else shown.double d
  | .float f =>
    if isIntegral f.unpack then longToString f.toInt64 else shown.float f
  | .long n => longToString n
  | .number s => s
  | .bool b => text (if b then "true" else "false")
  | .list items => ch '[' :: (stringifyItems true items ++ [ch ']'])
  | .map entries => ch '\x7b' :: (stringifyEntries true entries ++ [ch '\x7d'])
  | .other s => quote s

def stringifyItems (first : Bool) : List Value → Text
  | [] => []
  | v :: items =>
    (if first then [] else [ch ',']) ++ (stringify v ++ stringifyItems false items)

def stringifyEntries (first : Bool) : List (Text × Value) → Text
  | [] => []
  | (k, v) :: entries =>
    (if first then [] else [ch ',']) ++
      (quote k ++ (ch ':' :: (stringify v ++ stringifyEntries false entries)))

end

end Encoder

section Characters

/-- `Character.isWhitespace`: separators that are not no-break, and the control separators. -/
def isWhitespace (c : UInt16) : Bool :=
  (0x09 ≤ c && c ≤ 0x0D) || (0x1C ≤ c && c ≤ 0x20) || c == 0x1680 ||
    (0x2000 ≤ c && c ≤ 0x200A && c != 0x2007) || c == 0x2028 || c == 0x2029 || c == 0x205F ||
    c == 0x3000

/-- The zeros of the decimal digit ranges of the basic multilingual plane. -/
def zeros : List UInt16 :=
  [0x0030, 0x0660, 0x06F0, 0x07C0, 0x0966, 0x09E6, 0x0A66, 0x0AE6, 0x0B66, 0x0BE6, 0x0C66,
    0x0CE6, 0x0D66, 0x0DE6, 0x0E50, 0x0ED0, 0x0F20, 0x1040, 0x1090, 0x17E0, 0x1810, 0x1946,
    0x19D0, 0x1A80, 0x1A90, 0x1B50, 0x1BB0, 0x1C40, 0x1C50, 0xA620, 0xA8D0, 0xA900, 0xA9D0,
    0xA9F0, 0xAA50, 0xABF0, 0xFF10]

def decimalDigit (c : UInt16) : Option ℕ :=
  (zeros.find? (fun z ↦ z.toNat ≤ c.toNat && c.toNat < z.toNat + 10)).map
    (fun z ↦ c.toNat - z.toNat)

def isDigit (c : UInt16) : Bool := (decimalDigit c).isSome

/-- The letters of `Character.digit`, the full-width ones included. -/
def letterDigit (c : UInt16) : Option ℕ :=
  ([0x41, 0x61, 0xFF21, 0xFF41].find? (fun a ↦ a ≤ c.toNat && c.toNat < a + 26)).map
    (fun a ↦ c.toNat - a + 10)

/-- `Character.digit`. -/
def digit (radix : ℕ) (c : UInt16) : Option ℕ :=
  ((decimalDigit c).or (letterDigit c)).filter (· < radix)

def fromDigits (radix : ℕ) (ds : List ℕ) : ℕ := ds.foldl (fun n d ↦ n * radix + d) 0

/-- A sign that is there or not, and the text after it. -/
def splitSign : Text → Bool × Text
  | [] => (false, [])
  | c :: s => if c = ch '-' then (true, s) else if c = ch '+' then (false, s) else (false, c :: s)

def signed (neg : Bool) (m : ℕ) : ℤ := if neg then -m else m

/-- The number that `Integer.parseInt` and `Long.parseLong` read, before their range check. -/
def parseSigned (radix : ℕ) (s : Text) : Option ℤ :=
  if (splitSign s).2 = [] then none
  else ((splitSign s).2.mapM (digit radix)).map
    (fun ds ↦ signed (splitSign s).1 (fromDigits radix ds))

def parseInt (radix : ℕ) (s : Text) : Option ℤ :=
  (parseSigned radix s).filter (fun n ↦ -2 ^ 31 ≤ n ∧ n < 2 ^ 31)

def parseLong (s : Text) : Option Int64 :=
  ((parseSigned 10 s).filter (fun n ↦ -2 ^ 63 ≤ n ∧ n < 2 ^ 63)).map Int64.ofInt

def isAsciiDigit (c : UInt16) : Bool := 0x30 ≤ c && c ≤ 0x39

def asciiDigits (s : Text) : ℕ := fromDigits 10 (s.map (fun c ↦ c.toNat - 48))

/-- The exponent of a floating point literal, zero when there is none. -/
def parseExponent : Text → Option ℤ
  | [] => some 0
  | c :: s =>
    let ds := (splitSign s).2
    if (c = ch 'e' ∨ c = ch 'E') ∧ ds ≠ [] ∧ ds.all isAsciiDigit then
      some (signed (splitSign s).1 (asciiDigits ds))
    else none

/-- `Double.parseDouble` on the characters `number` collects: correctly rounded, with digits that
are ASCII and at least one of them before the exponent. -/
def parseDouble (s : Text) : Option Double :=
  let (neg, s) := splitSign s
  let whole := s.takeWhile isAsciiDigit
  let s := s.dropWhile isAsciiDigit
  let point := s.head? = some (ch '.')
  let fraction := if point then s.tail.takeWhile isAsciiDigit else []
  let s := if point then s.tail.dropWhile isAsciiDigit else s
  if whole ++ fraction = [] then none
  else (parseExponent s).map fun e ↦
    let d := Float.Model.ofScientific (asciiDigits (whole ++ fraction)) (e - fraction.length)
    if neg then d.neg else d

end Characters

section Decoder

/-- What a call can throw: `HonkerException` with its message, or `NumberFormatException` with the
text that is no number. -/
inductive Fault
  | honker (message : String)
  | numberFormat (input : Text)
  | outOfFuel
deriving DecidableEq

variable {α : Type}

-- the parser's position is kept as the text that is left, so `i` is `size` less its length
variable (size : ℕ)

def fail (s : Text) (msg : String) : Except Fault α :=
  .error (.honker
    ("invalid JSON from Honker: " ++ msg ++ " at byte " ++ toString (size - s.length)))

def ws (s : Text) : Text := s.dropWhile isWhitespace

def peek (c : Char) (s : Text) : Bool := s.head? == some (ch c)

def expect (c : Char) (s : Text) : Except Fault Text :=
  match ws s with
  | [] => fail size [] ("expected " ++ c.toString)
  | d :: rest => if d = ch c then .ok rest else fail size (d :: rest) ("expected " ++ c.toString)

/-- The escapes of one letter. -/
def unescape (e : UInt16) : Option UInt16 :=
  if e = ch '"' then some (ch '"')
  else if e = ch '\\' then some (ch '\\')
  else if e = ch '/' then some (ch '/')
  else if e = ch 'b' then some 0x08
  else if e = ch 'f' then some 0x0C
  else if e = ch 'n' then some (ch '\n')
  else if e = ch 'r' then some (ch '\r')
  else if e = ch 't' then some (ch '\t')
  else none

/-- The loop of `string` after the opening quote. -/
def stringLoop (sb : Text) : Text → Except Fault (Text × Text)
  | [] => fail size [] "unterminated string"
  | c :: s =>
    if c = ch '"' then .ok (sb, s)
    else if c ≠ ch '\\' then stringLoop (sb ++ [c]) s
    else match s with
      | [] => fail size [] "bad escape"
      | e :: s =>
        match unescape e with
        | some x => stringLoop (sb ++ [x]) s
        | none =>
          if e = ch 'u' then
            match s with
            | a :: b :: c :: d :: s =>
              match parseInt 16 [a, b, c, d] with
              | some x => stringLoop (sb ++ [UInt16.ofInt x]) s
              | none => .error (.numberFormat [a, b, c, d])
            | s => fail size s "bad unicode escape"
          else fail size s "bad escape"

def string (s : Text) : Except Fault (Text × Text) := do
  let s ← expect size '"' s
  stringLoop size [] s

/-- The text left after a fraction, if there is one. -/
def skipFraction (s : Text) : Bool × Text :=
  if peek '.' s then (true, s.tail.dropWhile isDigit) else (false, s)

/-- The text left after an exponent, if there is one. -/
def skipExponent (s : Text) : Bool × Text :=
  if peek 'e' s || peek 'E' s then
    let s := s.tail
    (true, (if peek '+' s || peek '-' s then s.tail else s).dropWhile isDigit)
  else (false, s)

/-- Both branches of the conditional are numeric, so a `long` is promoted to a `double` before the
result is boxed. -/
def number (s : Text) : Except Fault (Value × Text) :=
  let whole := (if peek '-' s then s.tail else s).dropWhile isDigit
  let fraction := skipFraction whole
  let exponent := skipExponent fraction.2
  let rest := exponent.2
  if rest.length = s.length then fail size s "expected number"
  else
    let n := s.take (s.length - rest.length)
    let read := if fraction.1 || exponent.1 then parseDouble n
      else (parseLong n).map Float.Model.ofInt64
    match read with
    | some d => .ok (.double d, rest)
    | none => .error (.numberFormat n)

def literal (lit : String) (v : Value) (s : Text) : Except Fault (Value × Text) :=
  if text lit <+: s then .ok (v, s.drop lit.length) else fail size s ("expected " ++ lit)

/-- `LinkedHashMap.put`: a key that is there keeps its place. -/
def put (out : List (Text × Value)) (k : Text) (v : Value) : List (Text × Value) :=
  if k ∈ out.map Prod.fst then out.map (fun e ↦ if e.1 = k then (k, v) else e)
  else out ++ [(k, v)]

mutual

def value : ℕ → Text → Except Fault (Value × Text)
  | 0, _ => .error .outOfFuel
  | fuel + 1, s =>
    match ws s with
    | [] => fail size [] "unexpected end"
    | c :: s =>
      if c = ch '"' then (string size (c :: s)).map (fun p ↦ (.str p.1, p.2))
      else if c = ch '\x7b' then
        if peek '\x7d' (ws s) then .ok (.map [], (ws s).tail) else members fuel [] (ws s)
      else if c = ch '[' then
        if peek ']' (ws s) then .ok (.list [], (ws s).tail) else elements fuel [] (ws s)
      else if c = ch 'n' then literal size "null" .null (c :: s)
      else if c = ch 't' then literal size "true" (.bool true) (c :: s)
      else if c = ch 'f' then literal size "false" (.bool false) (c :: s)
      else number size (c :: s)

/-- The loop of `object`. -/
def members : ℕ → List (Text × Value) → Text → Except Fault (Value × Text)
  | 0, _, _ => .error .outOfFuel
  | fuel + 1, out, s => do
    let (k, s) ← string size s
    let s ← expect size ':' (ws s)
    let (v, s) ← value fuel s
    if peek '\x7d' (ws s) then .ok (.map (put out k v), (ws s).tail)
    else do
      let s ← expect size ',' (ws s)
      members fuel (put out k v) s

/-- The loop of `array`. -/
def elements : ℕ → List Value → Text → Except Fault (Value × Text)
  | 0, _, _ => .error .outOfFuel
  | fuel + 1, out, s => do
    let (v, s) ← value fuel s
    if peek ']' (ws s) then .ok (.list (out ++ [v]), (ws s).tail)
    else do
      let s ← expect size ',' (ws s)
      elements fuel (out ++ [v]) s

end

end Decoder

/-- Each nested call and each turn of a loop takes one unit of fuel, and no text needs more. -/
def parse (s : Text) : Except Fault Value := do
  let (v, rest) ← value s.length (2 * s.length + 1) s
  if ws rest = [] then .ok v else fail s.length (ws rest) "trailing content"

section Totality

variable {α β : Type} {size : ℕ} {s t : Text}

/-- A call that ran to its end: it threw what the source throws, or left a shorter text. -/
def Settles (s : Text) (x : Except Fault (α × Text)) : Prop :=
  x ≠ .error .outOfFuel ∧ ∀ a rest, x = .ok (a, rest) → rest.length < s.length

theorem settles_error {e : Fault} (h : e ≠ .outOfFuel) :
    Settles s (.error e : Except Fault (α × Text)) := by
  refine ⟨by simpa using h, ?_⟩
  rintro _ _ ⟨⟩

theorem settles_fail (msg : String) : Settles s (fail size t msg : Except Fault (α × Text)) :=
  settles_error (by simp)

theorem settles_ok {a : α} (h : t.length < s.length) : Settles s (.ok (a, t)) := by
  refine ⟨by simp, ?_⟩
  rintro _ _ ⟨⟩
  exact h

theorem Settles.bind {x : Except Fault (α × Text)} {f : α × Text → Except Fault (β × Text)}
    (hx : Settles s x) (hf : ∀ a rest, rest.length < s.length → Settles s (f (a, rest))) :
    Settles s (x >>= f) := by
  cases x with
  | error e => exact settles_error (fun he ↦ hx.1 (congrArg Except.error he))
  | ok p => exact hf p.1 p.2 (hx.2 p.1 p.2 rfl)

theorem Settles.mono {x : Except Fault (α × Text)} (hx : Settles t x)
    (h : t.length ≤ s.length) : Settles s x :=
  ⟨hx.1, fun a rest ha ↦ (hx.2 a rest ha).trans_le h⟩

theorem length_ws_le (s : Text) : (ws s).length ≤ s.length := (List.dropWhile_sublist _).length_le

theorem length_tail_ws {c : Char} (h : peek c (ws s) = true) : (ws s).tail.length < s.length := by
  have hle := length_ws_le s
  cases hws : ws s with
  | nil => simp [hws, peek] at h
  | cons d rest =>
    rw [hws] at hle
    simpa using hle

theorem expect_bind {c : Char} {f : Text → Except Fault (α × Text)}
    (hf : ∀ rest, rest.length < t.length → Settles s (f rest)) :
    Settles s (expect size c t >>= f) := by
  have hle := length_ws_le t
  unfold expect
  cases hws : ws t with
  | nil => exact settles_fail _
  | cons d rest =>
    rw [hws] at hle
    by_cases hd : d = ch c
    · simp only [if_pos hd]
      exact hf rest hle
    · simp only [if_neg hd]
      exact settles_fail _

theorem settles_stringLoop (sb s : Text) : Settles s (stringLoop size sb s) := by
  fun_induction stringLoop size sb s with
  | case1 => exact settles_fail _
  | case2 => exact settles_ok (by simp)
  | case3 sb c s _ _ ih => exact ih.mono (by simp)
  | case4 => exact settles_fail _
  | case5 sb c _ _ e s x _ ih => exact ih.mono (by simp; omega)
  | case6 sb c _ _ a b c' d s x _ _ ih => exact ih.mono (by simp; omega)
  | case7 => exact settles_error (by simp)
  | case8 => exact settles_fail _
  | case9 => exact settles_fail _

theorem settles_string (s : Text) : Settles s (string size s) :=
  expect_bind (fun rest hrest ↦ (settles_stringLoop [] rest).mono hrest.le)

theorem length_dropDigits_le (s : Text) : (s.dropWhile isDigit).length ≤ s.length :=
  (List.dropWhile_sublist _).length_le

theorem length_skipFraction_le (s : Text) : (skipFraction s).2.length ≤ s.length := by
  unfold skipFraction
  split_ifs
  · exact (length_dropDigits_le _).trans (by simp)
  · exact le_rfl

theorem length_skipExponent_le (s : Text) : (skipExponent s).2.length ≤ s.length := by
  unfold skipExponent
  dsimp only
  split_ifs
  · exact (length_dropDigits_le _).trans (by simp; omega)
  · exact (length_dropDigits_le _).trans (by simp)
  · exact le_rfl

theorem settles_number (s : Text) : Settles s (number size s) := by
  have hsign : (if peek '-' s then s.tail else s).length ≤ s.length := by
    split_ifs <;> simp
  unfold number
  dsimp only
  generalize (if peek '-' s then s.tail else s) = t at hsign
  have hle := (length_skipExponent_le _).trans
    ((length_skipFraction_le _).trans ((length_dropDigits_le t).trans hsign))
  by_cases hsame : (skipExponent (skipFraction (t.dropWhile isDigit)).2).2.length = s.length
  · rw [if_pos hsame]
    exact settles_fail _
  · rw [if_neg hsame]
    split
    · exact settles_ok (lt_of_le_of_ne hle hsame)
    · exact settles_error (by simp)

theorem settles_literal (lit : String) (hlit : 0 < lit.length) (v : Value) (s : Text) :
    Settles s (literal size lit v s) := by
  unfold literal
  split_ifs with h
  · have hlen := h.length_le
    rw [text, List.length_map, String.length_toList] at hlen
    exact settles_ok (by rw [List.length_drop]; omega)
  · exact settles_fail _

theorem Settles.map {x : Except Fault (α × Text)} (hx : Settles s x) (f : α → β) :
    Settles s (x.map (fun p ↦ (f p.1, p.2))) := by
  cases x with
  | error e => exact settles_error (fun he ↦ hx.1 (congrArg Except.error he))
  | ok p => exact settles_ok (hx.2 p.1 p.2 rfl)

/-- A text of length `n` is read with `2 * n + 1` units of fuel, and a loop with one more. -/
structure Adequate (size fuel : ℕ) : Prop where
  value : ∀ s : Text, 2 * s.length < fuel → Settles s (value size fuel s)
  members : ∀ (out : List (Text × Value)) (s : Text), 2 * s.length + 1 < fuel →
    Settles s (members size fuel out s)
  elements : ∀ (out : List Value) (s : Text), 2 * s.length + 1 < fuel →
    Settles s (elements size fuel out s)

variable {fuel : ℕ}

theorem Adequate.value_succ (h : Adequate size fuel) (hfuel : 2 * s.length < fuel + 1) :
    Settles s (Jvm.value size (fuel + 1) s) := by
  have hle := length_ws_le s
  rw [Jvm.value]
  cases hws : ws s with
  | nil => exact settles_fail _
  | cons c t =>
    rw [hws] at hle
    have hle' := length_ws_le t
    have hlt : t.length < s.length := hle
    dsimp only
    split_ifs with _ _ hclose _ hclose
    · exact ((settles_string (c :: t)).mono hle).map Value.str
    · exact settles_ok ((length_tail_ws hclose).trans hlt)
    · exact (h.members [] (ws t) (by omega)).mono (by omega)
    · exact settles_ok ((length_tail_ws hclose).trans hlt)
    · exact (h.elements [] (ws t) (by omega)).mono (by omega)
    · exact (settles_literal "null" (by decide) _ _).mono hle
    · exact (settles_literal "true" (by decide) _ _).mono hle
    · exact (settles_literal "false" (by decide) _ _).mono hle
    · exact (settles_number _).mono hle

theorem Adequate.members_succ (h : Adequate size fuel) (out : List (Text × Value))
    (hfuel : 2 * s.length + 1 < fuel + 1) : Settles s (Jvm.members size (fuel + 1) out s) := by
  rw [Jvm.members]
  refine (settles_string s).bind (fun k s₁ h₁ ↦ expect_bind (fun s₂ h₂ ↦ ?_))
  have hle₁ := length_ws_le s₁
  refine ((h.value s₂ (by omega)).mono (by omega)).bind (fun v s₃ h₃ ↦ ?_)
  have hle₃ := length_ws_le s₃
  dsimp only
  split_ifs with hclose
  · exact settles_ok ((length_tail_ws hclose).trans h₃)
  · refine expect_bind (fun s₄ h₄ ↦ ?_)
    exact (h.members _ s₄ (by omega)).mono (by omega)

theorem Adequate.elements_succ (h : Adequate size fuel) (out : List Value)
    (hfuel : 2 * s.length + 1 < fuel + 1) : Settles s (Jvm.elements size (fuel + 1) out s) := by
  rw [Jvm.elements]
  refine (h.value s (by omega)).bind (fun v s₁ h₁ ↦ ?_)
  have hle₁ := length_ws_le s₁
  dsimp only
  split_ifs with hclose
  · exact settles_ok ((length_tail_ws hclose).trans h₁)
  · refine expect_bind (fun s₂ h₂ ↦ ?_)
    exact (h.elements _ s₂ (by omega)).mono (by omega)

theorem adequate (size fuel : ℕ) : Adequate size fuel := by
  induction fuel with
  | zero =>
    exact ⟨fun _ h ↦ absurd h (by omega), fun _ _ h ↦ absurd h (by omega),
      fun _ _ h ↦ absurd h (by omega)⟩
  | succ fuel ih =>
    exact ⟨fun _ ↦ ih.value_succ, fun out _ ↦ ih.members_succ out, fun out _ ↦ ih.elements_succ out⟩

/-- Every text is either parsed or refused with an exception of the source. -/
theorem parse_settles (s : Text) : parse s ≠ .error .outOfFuel := by
  have hvalue := (adequate s.length (2 * s.length + 1)).value s (by omega)
  intro hparse
  rcases bind_error.mp hparse with herr | ⟨⟨v, rest⟩, -, htrailing⟩
  · exact hvalue.1 herr
  · dsimp only at htrailing
    split_ifs at htrailing
    exact absurd htrailing (by simp [fail])

end Totality

end Honker.Jvm
