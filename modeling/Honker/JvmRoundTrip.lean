import Mathlib.Data.Nat.Digits.Lemmas
import Honker.JvmJson

namespace Honker.Jvm

section Strings

variable (size : ℕ)

theorem ws_cons {c : UInt16} (h : isWhitespace c = false) (s : Text) : ws (c :: s) = c :: s :=
  List.dropWhile_cons_of_neg (by simp [h])

theorem expect_cons (c : Char) (h : isWhitespace (ch c) = false) (s : Text) :
    expect size c (ch c :: s) = .ok s := by
  rw [expect, ws_cons h]
  exact if_pos rfl

theorem parseInt_hex {c : UInt16} (h : c < 0x20) :
    parseInt 16 [hexDigit (c.toNat / 4096), hexDigit (c.toNat / 256 % 16),
      hexDigit (c.toNat / 16 % 16), hexDigit (c.toNat % 16)] = some (c.toNat : ℤ) := by
  have hall : ∀ k < 32, parseInt 16 [hexDigit (k / 4096), hexDigit (k / 256 % 16),
      hexDigit (k / 16 % 16), hexDigit (k % 16)] = some (k : ℤ) := by decide
  exact hall c.toNat (UInt16.lt_iff_toNat_lt.mp h)

theorem stringLoop_unicode (sb : Text) {a b c d : UInt16} {x : ℤ}
    (h : parseInt 16 [a, b, c, d] = some x) (s : Text) :
    stringLoop size sb (ch '\\' :: ch 'u' :: a :: b :: c :: d :: s) =
      stringLoop size (sb ++ [UInt16.ofInt x]) s := by
  have hquote : ¬ ch '\\' = ch '"' := by decide
  have hletter : unescape (ch 'u') = none := by decide
  rw [stringLoop.eq_def]
  simp only [if_neg hquote, ne_eq, not_true_eq_false, if_false, hletter, if_true, h]

/-- One turn of the loop reads back what `quote` wrote for one code unit. -/
theorem stringLoop_escape (sb : Text) (c : UInt16) (s : Text) :
    stringLoop size sb (escape c ++ s) = stringLoop size (sb ++ [c]) s := by
  unfold escape
  split_ifs with hquote hback hb hf hn hr ht hlow
  · subst hquote
    rfl
  · subst hback
    rfl
  · subst hb
    rfl
  · subst hf
    rfl
  · subst hn
    rfl
  · subst hr
    rfl
  · subst ht
    rfl
  · have hcast : UInt16.ofInt (c.toNat : ℤ) = c := by
      have hlt := c.toNat_lt
      rw [UInt16.ofInt, Int.emod_eq_of_lt (by omega) (by omega), Int.toNat_natCast,
        UInt16.ofNat_toNat]
    have hread := stringLoop_unicode size sb (parseInt_hex hlow) s
    rw [hcast] at hread
    exact hread
  · rw [List.singleton_append, stringLoop.eq_def]
    simp only [if_neg hquote, if_pos hback]

theorem stringLoop_escaped (sb s rest : Text) :
    stringLoop size sb (s.flatMap escape ++ ch '"' :: rest) = .ok (sb ++ s, rest) := by
  induction s generalizing sb with
  | nil =>
    rw [List.flatMap_nil, List.nil_append, List.append_nil, stringLoop.eq_def]
    exact if_pos rfl
  | cons c s ih =>
    rw [List.flatMap_cons, List.append_assoc, stringLoop_escape, ih]
    simp

theorem string_quote (s rest : Text) : string size (quote s ++ rest) = .ok (s, rest) := by
  have hopen := expect_cons size '"' (by decide) (s.flatMap escape ++ ch '"' :: rest)
  simp only [string, quote, List.cons_append, List.append_assoc, List.nil_append, hopen]
  exact stringLoop_escaped size [] s rest

end Strings

section Numbers

variable (size : ℕ)

theorem digit_asciiDigit : ∀ d < 10, digit 10 (asciiDigit d) = some d := by decide

theorem isDigit_asciiDigit : ∀ d < 10, isDigit (asciiDigit d) = true := by decide

theorem asciiDigit_ne_sign : ∀ d < 10, asciiDigit d ≠ ch '-' ∧ asciiDigit d ≠ ch '+' := by decide

/-- The characters a `Long` can start with. -/
def StartsLong (c : UInt16) : Prop := c = ch '-' ∨ ∃ d < 10, c = asciiDigit d

theorem fromDigits_reverse (ds : List ℕ) : fromDigits 10 ds.reverse = Nat.ofDigits 10 ds := by
  rw [fromDigits, List.foldl_reverse, Nat.ofDigits_eq_foldr]
  congr 1
  funext d n
  simp only [Nat.cast_id]
  ring

theorem decimal_digits (m : ℕ) :
    ∃ ds : List ℕ, decimal m = ds.map asciiDigit ∧ ds ≠ [] ∧ (∀ d ∈ ds, d < 10) ∧
      fromDigits 10 ds = m := by
  unfold decimal
  split_ifs with hm
  · exact ⟨[0], rfl, by simp, by simp, by simp [fromDigits, hm]⟩
  · refine ⟨(Nat.digits 10 m).reverse, rfl, ?_, ?_, ?_⟩
    · simpa using Nat.digits_ne_nil_iff_ne_zero.mpr hm
    · intro d hd
      exact Nat.digits_lt_base (by norm_num) (List.mem_reverse.mp hd)
    · rw [fromDigits_reverse, Nat.ofDigits_digits]

theorem mapM_digit {ds : List ℕ} (h : ∀ d ∈ ds, d < 10) :
    (ds.map asciiDigit).mapM (digit 10) = some ds := by
  induction ds with
  | nil => rfl
  | cons d ds ih =>
    rw [List.map_cons, List.mapM_cons, digit_asciiDigit d (h d (by simp)),
      ih (fun x hx ↦ h x (by simp [hx]))]
    rfl

/-- `Long.toString` is a sign for the negative numbers and then digits. -/
theorem longToString_spec (n : Int64) :
    ∃ ds : List ℕ, ds ≠ [] ∧ (∀ d ∈ ds, d < 10) ∧ fromDigits 10 ds = n.toInt.natAbs ∧
      longToString n = if n.toInt < 0 then ch '-' :: ds.map asciiDigit else ds.map asciiDigit := by
  obtain ⟨ds, htext, hne, hlt, hval⟩ := decimal_digits n.toInt.natAbs
  refine ⟨ds, hne, hlt, hval, ?_⟩
  rw [longToString, htext]

theorem parseSigned_longToString (n : Int64) : parseSigned 10 (longToString n) = some n.toInt := by
  obtain ⟨ds, hne, hlt, hval, htext⟩ := longToString_spec n
  have hsplit : splitSign (longToString n) = (decide (n.toInt < 0), ds.map asciiDigit) := by
    rw [htext]
    split_ifs with hneg
    · simp [splitSign, hneg]
    · obtain ⟨d, ds, rfl⟩ := List.exists_cons_of_ne_nil hne
      obtain ⟨hminus, hplus⟩ := asciiDigit_ne_sign d (hlt d (by simp))
      simp [splitSign, hminus, hplus, hneg]
  rw [parseSigned, hsplit, if_neg (by simpa using hne), mapM_digit hlt, Option.map_some, hval]
  by_cases hneg : n.toInt < 0
  · simp only [signed, hneg, decide_true, if_true, Option.some.injEq]
    omega
  · simp only [signed, hneg, decide_false, Bool.false_eq_true, if_false, Option.some.injEq]
    omega

theorem parseLong_longToString (n : Int64) : parseLong (longToString n) = some n := by
  have hlow := n.le_toInt
  have hhigh := n.toInt_lt
  rw [parseLong, parseSigned_longToString, Option.filter_some_pos (by simp; omega),
    Option.map_some, Int64.ofInt_toInt]

/-- What follows a value inside a larger text. -/
def Stops (rest : Text) : Prop :=
  rest = [] ∨ ∃ c s, rest = ch c :: s ∧ (c = ',' ∨ c = ']' ∨ c = '\x7d')

theorem dropWhile_longToString (n : Int64) {rest : Text} (hrest : rest.dropWhile isDigit = rest) :
    (if peek '-' (longToString n ++ rest) then (longToString n ++ rest).tail
      else longToString n ++ rest).dropWhile isDigit = rest := by
  obtain ⟨ds, hne, hlt, -, htext⟩ := longToString_spec n
  have hdigits : (ds.map asciiDigit ++ rest).dropWhile isDigit = rest := by
    rw [List.dropWhile_append_of_pos, hrest]
    intro c hc
    obtain ⟨d, hd, rfl⟩ := List.mem_map.mp hc
    exact isDigit_asciiDigit d (hlt d hd)
  rw [htext]
  split_ifs with hneg hminus hminus
  · exact hdigits
  · exact absurd rfl hminus
  · obtain ⟨d, ds, rfl⟩ := List.exists_cons_of_ne_nil hne
    have hsign := (asciiDigit_ne_sign d (hlt d (by simp))).1
    simp [peek, hsign] at hminus
  · exact hdigits

theorem Stops.number {rest : Text} (h : Stops rest) :
    rest.dropWhile isDigit = rest ∧ skipFraction rest = (false, rest) ∧
      skipExponent rest = (false, rest) := by
  obtain rfl | ⟨c, s, rfl, rfl | rfl | rfl⟩ := h
  · exact ⟨rfl, rfl, rfl⟩
  · exact ⟨rfl, rfl, rfl⟩
  · exact ⟨rfl, rfl, rfl⟩
  · exact ⟨rfl, rfl, rfl⟩

theorem number_longToString (n : Int64) {rest : Text} (hrest : Stops rest) :
    number size (longToString n ++ rest) = .ok (.double (.ofInt64 n), rest) := by
  obtain ⟨hdigits, hfraction, hexponent⟩ := hrest.number
  have hne : longToString n ≠ [] := by
    obtain ⟨ds, hne, -, -, htext⟩ := longToString_spec n
    rw [htext]
    split_ifs
    · simp
    · simpa using hne
  have hpos : 0 < (longToString n).length := List.length_pos_iff.mpr hne
  simp only [number, dropWhile_longToString n hdigits, hfraction, hexponent]
  rw [if_neg (by simp; omega), List.length_append, Nat.add_sub_cancel, List.take_left,
    parseLong_longToString]
  rfl

end Numbers

section RoundTrip

variable (size : ℕ)

mutual

/-- The value that comes back: every `Long` has become a `Double`. -/
def Value.asRead : Value → Value
  | .long n => .double (.ofInt64 n)
  | .list items => .list (itemsAsRead items)
  | .map entries => .map (entriesAsRead entries)
  | v => v

def itemsAsRead : List Value → List Value
  | [] => []
  | v :: items => v.asRead :: itemsAsRead items

def entriesAsRead : List (Text × Value) → List (Text × Value)
  | [] => []
  | (k, v) :: entries => (k, v.asRead) :: entriesAsRead entries

end

theorem literal_text (lit : String) (v : Value) (rest : Text) :
    literal size lit v (text lit ++ rest) = .ok (v, rest) := by
  have hlen : (text lit).length = lit.length := by
    rw [text, List.length_map, String.length_toList]
  rw [literal, if_pos (List.prefix_append _ _), ← hlen, List.drop_left]

theorem value_number {c : UInt16} (hc : StartsLong c) (fuel : ℕ) (s : Text) :
    value size (fuel + 1) (c :: s) = number size (c :: s) := by
  obtain rfl | ⟨d, hd, rfl⟩ := hc
  · rfl
  · interval_cases d <;> rfl

theorem startsLong_longToString (n : Int64) : ∃ c s, longToString n = c :: s ∧ StartsLong c := by
  obtain ⟨ds, hne, hlt, -, htext⟩ := longToString_spec n
  obtain ⟨d, ds, rfl⟩ := List.exists_cons_of_ne_nil hne
  rw [htext]
  split_ifs
  · exact ⟨_, _, rfl, Or.inl rfl⟩
  · exact ⟨_, _, rfl, Or.inr ⟨d, hlt d (by simp), rfl⟩⟩

theorem put_fresh {out : List (Text × Value)} {k : Text} (h : k ∉ out.map Prod.fst) (v : Value) :
    put out k v = out ++ [(k, v)] := if_neg h

/-- `value` reads a value back from its text, up to the closing character after it. -/
def ReadsBack (shown : FloatText) (v : Value) : Prop :=
  ∀ (size fuel : ℕ) (rest : Text), 2 * (stringify shown v).length < fuel → Stops rest →
    value size fuel (stringify shown v ++ rest) = .ok (v.asRead, rest)

variable {shown : FloatText} {fuel : ℕ}

theorem stringifyItems_later {items : List Value} (h : items ≠ []) :
    stringifyItems shown false items = ch ',' :: stringifyItems shown true items := by
  obtain ⟨v, items, rfl⟩ := List.exists_cons_of_ne_nil h
  rfl

theorem stringifyEntries_later {entries : List (Text × Value)} (h : entries ≠ []) :
    stringifyEntries shown false entries = ch ',' :: stringifyEntries shown true entries := by
  obtain ⟨⟨k, v⟩, entries, rfl⟩ := List.exists_cons_of_ne_nil h
  rfl

theorem elements_last {s rest : Text} {v : Value} (out : List Value)
    (hv : value size fuel s = .ok (v, ch ']' :: rest)) :
    elements size (fuel + 1) out s = .ok (.list (out ++ [v]), rest) := by
  rw [elements, hv]
  rfl

theorem elements_next {s rest : Text} {v : Value} (out : List Value)
    (hv : value size fuel s = .ok (v, ch ',' :: rest)) :
    elements size (fuel + 1) out s = elements size fuel (out ++ [v]) rest := by
  rw [elements, hv]
  rfl

theorem members_last {s rest : Text} {v : Value} (out : List (Text × Value)) (k : Text)
    (hv : value size fuel s = .ok (v, ch '\x7d' :: rest)) :
    members size (fuel + 1) out (quote k ++ ch ':' :: s) = .ok (.map (put out k v), rest) := by
  rw [members, string_quote]
  change (value size fuel s >>= _) = _
  rw [hv]
  rfl

theorem members_next {s rest : Text} {v : Value} (out : List (Text × Value)) (k : Text)
    (hv : value size fuel s = .ok (v, ch ',' :: rest)) :
    members size (fuel + 1) out (quote k ++ ch ':' :: s) =
      members size fuel (put out k v) rest := by
  rw [members, string_quote]
  change (value size fuel s >>= _) = _
  rw [hv]
  rfl

theorem elements_items {items : List Value} (hne : items ≠ [])
    (hread : ∀ v ∈ items, ReadsBack shown v) (out : List Value) (fuel : ℕ) (rest : Text)
    (hfuel : 2 * (stringifyItems shown true items).length + 1 < fuel) :
    elements size fuel out (stringifyItems shown true items ++ ch ']' :: rest) =
      .ok (.list (out ++ itemsAsRead items), rest) := by
  induction items generalizing out fuel with
  | nil => exact absurd rfl hne
  | cons v items ih =>
    have htext : stringifyItems shown true (v :: items) =
        stringify shown v ++ stringifyItems shown false items := rfl
    rw [htext, List.length_append] at hfuel
    obtain ⟨fuel, rfl⟩ : ∃ k, fuel = k + 1 := ⟨fuel - 1, by omega⟩
    have hv := hread v (by simp) size fuel
      (stringifyItems shown false items ++ ch ']' :: rest) (by omega)
    rw [htext, List.append_assoc]
    by_cases hlast : items = []
    · subst hlast
      exact elements_last size out (hv (Or.inr ⟨']', rest, rfl, by simp⟩))
    · rw [stringifyItems_later hlast] at hv hfuel ⊢
      rw [List.cons_append] at hv ⊢
      rw [elements_next size out (hv (Or.inr ⟨',', _, rfl, by simp⟩)),
        ih hlast (fun w hw ↦ hread w (by simp [hw])) (out ++ [v.asRead]) fuel
          (by simp only [List.length_cons] at hfuel; omega),
        List.append_assoc]
      rfl

theorem members_entries {entries : List (Text × Value)} (hne : entries ≠ [])
    (hread : ∀ e ∈ entries, ReadsBack shown e.2) (out : List (Text × Value)) (fuel : ℕ)
    (rest : Text) (hkeys : (out.map Prod.fst ++ entries.map Prod.fst).Nodup)
    (hfuel : 2 * (stringifyEntries shown true entries).length + 1 < fuel) :
    members size fuel out (stringifyEntries shown true entries ++ ch '\x7d' :: rest) =
      .ok (.map (out ++ entriesAsRead entries), rest) := by
  induction entries generalizing out fuel with
  | nil => exact absurd rfl hne
  | cons e entries ih =>
    obtain ⟨k, v⟩ := e
    have htext : stringifyEntries shown true ((k, v) :: entries) =
        quote k ++ ch ':' :: (stringify shown v ++ stringifyEntries shown false entries) := rfl
    have hfresh : k ∉ out.map Prod.fst := by
      intro hk
      exact (List.nodup_append.mp hkeys).2.2 k hk k (by simp) rfl
    rw [htext, List.length_append, List.length_cons, List.length_append] at hfuel
    obtain ⟨fuel, rfl⟩ : ∃ k, fuel = k + 1 := ⟨fuel - 1, by omega⟩
    have hread₁ : ReadsBack shown v := hread (k, v) (by simp)
    have hv := hread₁ size fuel
      (stringifyEntries shown false entries ++ ch '\x7d' :: rest) (by omega)
    rw [htext, List.append_assoc, List.cons_append, List.append_assoc]
    by_cases hlast : entries = []
    · subst hlast
      rw [members_last size out k (hv (Or.inr ⟨'\x7d', rest, rfl, by simp⟩)), put_fresh hfresh]
      rfl
    · rw [stringifyEntries_later hlast] at hv hfuel ⊢
      rw [List.cons_append] at hv ⊢
      rw [members_next size out k (hv (Or.inr ⟨',', _, rfl, by simp⟩)), put_fresh hfresh,
        ih hlast (fun w hw ↦ hread w (by simp [hw])) (out ++ [(k, v.asRead)])
          fuel (by simpa using hkeys) (by simp only [List.length_cons] at hfuel; omega),
        List.append_assoc]
      rfl

theorem stringify_head (shown : FloatText) {v : Value} (hv : v.Plain) :
    ∃ c s, stringify shown v = c :: s ∧ isWhitespace c = false ∧ c ≠ ch ']' := by
  cases hv with
  | null => exact ⟨ch 'n', text "ull", rfl, by decide, by decide⟩
  | bool b =>
    cases b with
    | true => exact ⟨ch 't', text "rue", rfl, by decide, by decide⟩
    | false => exact ⟨ch 'f', text "alse", rfl, by decide, by decide⟩
  | long n =>
    obtain ⟨c, s, htext, rfl | ⟨d, hd, rfl⟩⟩ := startsLong_longToString n
    · exact ⟨_, s, htext, by decide, by decide⟩
    · have hall : ∀ k < 10, isWhitespace (asciiDigit k) = false ∧ asciiDigit k ≠ ch ']' := by decide
      exact ⟨_, s, htext, hall d hd⟩
  | str s => exact ⟨ch '"', _, rfl, by decide, by decide⟩
  | list => exact ⟨ch '[', _, rfl, by decide, by decide⟩
  | map => exact ⟨ch '\x7b', _, rfl, by decide, by decide⟩

theorem value_array {c : UInt16} (hws : isWhitespace c = false) (hc : c ≠ ch ']') (s : Text) :
    value size (fuel + 1) (ch '[' :: c :: s) = elements size fuel [] (c :: s) := by
  have hpeek : peek ']' (c :: s) = false := by simp [peek, hc]
  have hopen : value size (fuel + 1) (ch '[' :: c :: s) =
      if peek ']' (ws (c :: s)) then .ok (.list [], (ws (c :: s)).tail)
      else elements size fuel [] (ws (c :: s)) := rfl
  rw [hopen, ws_cons hws, hpeek]
  rfl

/-- Any text needs one unit of fuel. -/
theorem ReadsBack.of_succ {v : Value}
    (h : ∀ size fuel rest, 2 * (stringify shown v).length ≤ fuel → Stops rest →
      value size (fuel + 1) (stringify shown v ++ rest) = .ok (v.asRead, rest)) :
    ReadsBack shown v := by
  intro size fuel rest hfuel hrest
  obtain ⟨fuel, rfl⟩ : ∃ k, fuel = k + 1 := ⟨fuel - 1, by omega⟩
  exact h size fuel rest (by omega) hrest

theorem readsBack_long (n : Int64) : ReadsBack shown (.long n) := by
  refine .of_succ fun size fuel rest _ hrest ↦ ?_
  obtain ⟨c, s, htext, hc⟩ := startsLong_longToString n
  have hnumber := number_longToString size n hrest
  rw [htext] at hnumber
  rw [stringify, htext]
  exact (value_number size hc fuel _).trans hnumber

theorem readsBack_list {items : List Value} (hplain : ∀ v ∈ items, v.Plain)
    (hread : ∀ v ∈ items, ReadsBack shown v) : ReadsBack shown (.list items) := by
  refine .of_succ fun size fuel rest hfuel _ ↦ ?_
  by_cases hempty : items = []
  · subst hempty
    rfl
  · have hitems := elements_items size hempty hread [] fuel rest
      (by simp only [stringify, List.length_cons, List.length_append] at hfuel; omega)
    obtain ⟨v, items, rfl⟩ := List.exists_cons_of_ne_nil hempty
    obtain ⟨c, s, htext, hws, hc⟩ := stringify_head shown (hplain v (by simp))
    have hstart : stringifyItems shown true (v :: items) =
        c :: (s ++ stringifyItems shown false items) := by
      rw [stringifyItems, htext]
      rfl
    rw [hstart] at hitems
    rw [stringify, hstart, List.cons_append, List.append_assoc]
    exact (value_array size hws hc _).trans hitems

theorem readsBack_map {entries : List (Text × Value)} (hkeys : (entries.map Prod.fst).Nodup)
    (hread : ∀ e ∈ entries, ReadsBack shown e.2) : ReadsBack shown (.map entries) := by
  refine .of_succ fun size fuel rest hfuel _ ↦ ?_
  by_cases hempty : entries = []
  · subst hempty
    rfl
  · have hentries := members_entries size hempty hread [] fuel rest (by simpa using hkeys)
      (by simp only [stringify, List.length_cons, List.length_append] at hfuel; omega)
    obtain ⟨⟨k, v⟩, entries, rfl⟩ := List.exists_cons_of_ne_nil hempty
    rw [stringify, List.cons_append, List.append_assoc]
    exact hentries

/-- Every plain value is read back with its numbers promoted; the induction is on the value. -/
theorem readsBack (shown : FloatText) {v : Value} (hv : v.Plain) : ReadsBack shown v := by
  induction hv with
  | null => exact .of_succ fun size _ rest _ _ ↦ literal_text size "null" .null rest
  | bool b =>
    cases b with
    | true => exact .of_succ fun size _ rest _ _ ↦ literal_text size "true" (.bool true) rest
    | false => exact .of_succ fun size _ rest _ _ ↦ literal_text size "false" (.bool false) rest
  | long n => exact readsBack_long n
  | str s =>
    refine .of_succ fun size fuel rest _ _ ↦ ?_
    change (string size (quote s ++ rest)).map _ = _
    rw [string_quote]
    rfl
  | list hplain ih => exact readsBack_list hplain ih
  | map hkeys _ ih => exact readsBack_map hkeys ih

theorem parse_stringify (shown : FloatText) {v : Value} (hv : v.Plain) :
    parse (stringify shown v) = .ok v.asRead := by
  have hread := readsBack shown hv (stringify shown v).length
    (2 * (stringify shown v).length + 1) [] (by omega) (Or.inl rfl)
  rw [List.append_nil] at hread
  rw [parse, hread]
  rfl

theorem itemsAsRead_eq {items : List Value}
    (h : ∀ v ∈ items, v.asRead = v ↔ v.hasLong = false) :
    itemsAsRead items = items ↔ itemsHaveLong items = false := by
  induction items with
  | nil => simp [itemsAsRead, itemsHaveLong]
  | cons v items ih =>
    rw [itemsAsRead, itemsHaveLong, List.cons.injEq, Bool.or_eq_false_iff, h v (by simp),
      ih (fun w hw ↦ h w (by simp [hw]))]

theorem entriesAsRead_eq {entries : List (Text × Value)}
    (h : ∀ e ∈ entries, e.2.asRead = e.2 ↔ e.2.hasLong = false) :
    entriesAsRead entries = entries ↔ entriesHaveLong entries = false := by
  induction entries with
  | nil => simp [entriesAsRead, entriesHaveLong]
  | cons e entries ih =>
    obtain ⟨k, v⟩ := e
    rw [entriesAsRead, entriesHaveLong, List.cons.injEq, Bool.or_eq_false_iff, Prod.mk.injEq,
      ih (fun w hw ↦ h w (by simp [hw]))]
    simp [h (k, v) (by simp)]

theorem asRead_eq {v : Value} (hv : v.Plain) : v.asRead = v ↔ v.hasLong = false := by
  induction hv with
  | null => simp [Value.asRead, Value.hasLong]
  | bool b => simp [Value.asRead, Value.hasLong]
  | long n => simp [Value.asRead, Value.hasLong]
  | str s => simp [Value.asRead, Value.hasLong]
  | list _ ih => rw [Value.asRead, Value.hasLong, Value.list.injEq, itemsAsRead_eq ih]
  | map _ _ ih => rw [Value.asRead, Value.hasLong, Value.map.injEq, entriesAsRead_eq ih]

end RoundTrip

section Printable

/-- No raw character below U+0020. -/
def Printable (s : Text) : Prop := ∀ c ∈ s, 0x20 ≤ c

instance (s : Text) : Decidable (Printable s) := List.decidableBAll (0x20 ≤ ·) s

theorem printable_nil : Printable [] := by decide

theorem Printable.append {s t : Text} (hs : Printable s) (ht : Printable t) :
    Printable (s ++ t) := by
  intro c hc
  rcases List.mem_append.mp hc with hc | hc
  · exact hs c hc
  · exact ht c hc

theorem Printable.cons {c : UInt16} {s : Text} (hc : 0x20 ≤ c) (hs : Printable s) :
    Printable (c :: s) := by
  intro x hx
  rcases List.mem_cons.mp hx with rfl | hx
  · exact hc
  · exact hs x hx

theorem printable_escape (c : UInt16) : Printable (escape c) := by
  unfold escape
  split_ifs with _ _ _ _ _ _ _ hlow
  iterate 7 decide
  · have hall : ∀ k < 32, Printable (text "\\u" ++ [hexDigit (k / 4096), hexDigit (k / 256 % 16),
        hexDigit (k / 16 % 16), hexDigit (k % 16)]) := by decide
    exact hall c.toNat (UInt16.lt_iff_toNat_lt.mp hlow)
  · exact Printable.cons (UInt16.not_lt.mp hlow) (by decide)

theorem printable_quote (s : Text) : Printable (quote s) := by
  refine Printable.cons (by decide) (Printable.append ?_ (by decide))
  induction s with
  | nil => decide
  | cons c s ih =>
    rw [List.flatMap_cons]
    exact (printable_escape c).append ih

theorem printable_longToString (n : Int64) : Printable (longToString n) := by
  obtain ⟨ds, -, hlt, -, htext⟩ := longToString_spec n
  have hdigits : Printable (ds.map asciiDigit) := by
    intro c hc
    obtain ⟨d, hd, rfl⟩ := List.mem_map.mp hc
    have hall : ∀ k < 10, 0x20 ≤ asciiDigit k := by decide
    exact hall d (hlt d hd)
  rw [htext]
  split_ifs
  · exact Printable.cons (by decide) hdigits
  · exact hdigits

variable {shown : FloatText}

theorem printable_items {items : List Value} (h : ∀ v ∈ items, Printable (stringify shown v))
    (first : Bool) : Printable (stringifyItems shown first items) := by
  induction items generalizing first with
  | nil => exact printable_nil
  | cons v items ih =>
    have hrest := ih (fun w hw ↦ h w (by simp [hw])) false
    have hv := (h v (by simp)).append hrest
    cases first with
    | true => exact hv
    | false => exact Printable.cons (by decide) hv

theorem printable_entries {entries : List (Text × Value)}
    (h : ∀ e ∈ entries, Printable (stringify shown e.2)) (first : Bool) :
    Printable (stringifyEntries shown first entries) := by
  induction entries generalizing first with
  | nil => exact printable_nil
  | cons e entries ih =>
    obtain ⟨k, v⟩ := e
    have hrest := ih (fun w hw ↦ h w (by simp [hw])) false
    have hv := (printable_quote k).append
      (Printable.cons (c := ch ':') (by decide) ((h (k, v) (by simp)).append hrest))
    cases first with
    | true => exact hv
    | false => exact Printable.cons (by decide) hv

theorem printable_stringify (shown : FloatText) {v : Value} (hv : v.Plain) :
    Printable (stringify shown v) := by
  induction hv with
  | null =>
    rw [stringify]
    decide
  | bool b =>
    rw [stringify]
    cases b <;> decide
  | long n => exact printable_longToString n
  | str s => exact printable_quote s
  | list _ ih => exact Printable.cons (by decide) ((printable_items ih true).append (by decide))
  | map _ _ ih => exact Printable.cons (by decide) ((printable_entries ih true).append (by decide))

end Printable

/-- The values the codec is for. -/
def PlainValue := { v : Value // v.Plain }

/-- The codec gives the value back, from a text with no raw control character. -/
def RoundTrips (shown : FloatText) (v : PlainValue) : Prop :=
  parse (stringify shown v.1) = .ok v.1 ∧ Printable (stringify shown v.1)

/-- A value survives the codec exactly when no `Long` occurs in it. -/
theorem json_round_trip_iff (shown : FloatText) (v : PlainValue) :
    RoundTrips shown v ↔ v.1.hasLong = false := by
  rw [RoundTrips, parse_stringify shown v.2, Except.ok.injEq, asRead_eq v.2]
  exact and_iff_left (printable_stringify shown v.2)

/-- Past `2 ^ 53` the number itself changes. -/
theorem json_loses_long :
    let v : PlainValue := ⟨.long 9007199254740993, .long _⟩
    let shown : FloatText := ⟨fun _ ↦ [], fun _ ↦ []⟩
    ¬ RoundTrips shown v ∧
      parse (stringify shown v.1) = .ok (.double (.ofInt64 9007199254740992)) := by
  intro v shown
  have hread : parse (stringify shown v.1) = .ok (.double (.ofInt64 9007199254740992)) := by
    rw [parse_stringify shown v.2]
    have hround : Float.Model.ofInt64 9007199254740993 = .ofInt64 9007199254740992 := by decide
    exact congrArg (fun d ↦ Except.ok (Value.double d)) hround
  refine ⟨?_, hread⟩
  rintro ⟨hsame, -⟩
  rw [hread] at hsame
  cases hsame

end Honker.Jvm
