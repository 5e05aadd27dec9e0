import Honker.NextMatch

namespace Honker.Cron

open Calendar Numeric Fallible

section Pieces

variable {c : Char} {text before after : List Char}

theorem takeWhile_stop (after : List Char) {p : Char → Bool} (hall : ∀ x ∈ before, p x = true)
    (hstop : p c = false) :
    (before ++ c :: after).takeWhile p = before ∧
      (before ++ c :: after).dropWhile p = c :: after := by
  constructor
  · rw [List.takeWhile_append_of_pos hall, List.takeWhile_cons_of_neg (by simp [hstop]),
      List.append_nil]
  · rw [List.dropWhile_append_of_pos hall, List.dropWhile_cons_of_neg (by simp [hstop])]

theorem splitOnce_first (hnot : c ∉ before) :
    splitOnce c (before ++ c :: after) = some (before, after) := by
  have hall : ∀ x ∈ before, decide (x ≠ c) = true := by
    intro x hx
    simpa using ne_of_mem_of_not_mem hx hnot
  obtain ⟨htake, hdrop⟩ := takeWhile_stop after hall (c := c) (by simp)
  rw [splitOnce, List.span_eq_takeWhile_dropWhile, htake, hdrop]

theorem splitOnce_absent (hnot : c ∉ text) : splitOnce c text = none := by
  have hall : ∀ x ∈ text, decide (x ≠ c) = true := by
    intro x hx
    simpa using ne_of_mem_of_not_mem hx hnot
  rw [splitOnce, List.span_eq_takeWhile_dropWhile, List.dropWhile_eq_nil_iff.mpr hall]

theorem splitOnce_cases (c : Char) (text : List Char) :
    (c ∉ text ∧ splitOnce c text = none) ∨
      ∃ before after, text = before ++ c :: after ∧ c ∉ before ∧
        splitOnce c text = some (before, after) := by
  by_cases hmem : c ∈ text
  · obtain ⟨before, after, rfl, hnot⟩ := List.eq_append_cons_of_mem hmem
    exact Or.inr ⟨before, after, rfl, hnot, splitOnce_first hnot⟩
  · exact Or.inl ⟨hmem, splitOnce_absent hmem⟩

end Pieces

section Field

variable {lo hi v a b step : ℕ} {text part : List Char}

/-- A `u32` as Rust reads it: decimal digits, with a plus sign or without one. -/
def IsLiteral (text : List Char) (v : ℕ) : Prop :=
  ∃ digits, (text = digits ∨ text = '+' :: digits) ∧ digits ≠ [] ∧
    (∀ c ∈ digits, c.isDigit = true) ∧ v = decimal digits ∧ v < 2 ^ 32

/-- One range of a field: `*`, a literal, or two literals with a dash. -/
inductive RangeText (lo hi : ℕ) : List Char → ℕ → ℕ → Prop
  | star : RangeText lo hi ['*'] lo hi
  | single {text : List Char} {a : ℕ} : IsLiteral text a → RangeText lo hi text a a
  | dash {text text' : List Char} {a b : ℕ} :
      IsLiteral text a → IsLiteral text' b → RangeText lo hi (text ++ '-' :: text') a b

/-- One element of a field: a range, with a step or without one. -/
inductive PartText (lo hi : ℕ) : List Char → Progression → Prop
  | plain {text : List Char} {a b : ℕ} :
      RangeText lo hi text a b → lo ≤ a → a ≤ b → b ≤ hi → PartText lo hi text ⟨a, b, 1⟩
  | stepped {text text' : List Char} {a b step : ℕ} :
      RangeText lo hi text a b → lo ≤ a → a ≤ b → b ≤ hi → IsLiteral text' step → 1 ≤ step →
      PartText lo hi (text ++ '/' :: text') ⟨a, b, step⟩

/-- A field: elements with commas between them, whose values are those of any of them. -/
def FieldText (lo hi : ℕ) (field : List Char) (set : Finset ℕ) : Prop :=
  ∃ texts parts, texts ≠ [] ∧ field = [','].intercalate texts ∧
    List.Forall₂ (PartText lo hi) texts parts ∧ ∀ v, v ∈ set ↔ ∃ p ∈ parts, p.Has v

theorem parseU32_iff : parseU32 text = some v ↔ IsLiteral text v := by
  unfold parseU32 IsLiteral
  dsimp only
  split
  · rename_i c rest
    constructor
    · intro h
      split_ifs at h with hdigits
      cases h
      exact ⟨c :: rest, Or.inr rfl, hdigits.1, List.all_eq_true.mp hdigits.2.1, rfl, hdigits.2.2⟩
    · rintro ⟨digits, htext | htext, hne, hall, rfl, hlt⟩
      · subst htext
        exact absurd (hall '+' (by simp)) (by decide)
      · cases htext
        rw [if_pos ⟨hne, List.all_eq_true.mpr hall, hlt⟩]
  · rename_i hform
    constructor
    · intro h
      split_ifs at h with hdigits
      cases h
      exact ⟨text, Or.inl rfl, hdigits.1, List.all_eq_true.mp hdigits.2.1, rfl, hdigits.2.2⟩
    · rintro ⟨digits, rfl | rfl, hne, hall, rfl, hlt⟩
      · rw [if_pos ⟨hne, List.all_eq_true.mpr hall, hlt⟩]
      · cases digits with
        | nil => exact absurd rfl hne
        | cons c rest => exact absurd rfl (hform c rest)

theorem IsLiteral.chars (h : IsLiteral text v) : ∀ c ∈ text, c.isDigit = true ∨ c = '+' := by
  obtain ⟨digits, rfl | rfl, -, hall, -, -⟩ := h
  · exact fun c hc ↦ Or.inl (hall c hc)
  · intro c hc
    rcases List.mem_cons.mp hc with rfl | hc
    · exact Or.inr rfl
    · exact Or.inl (hall c hc)

theorem IsLiteral.not_mem (h : IsLiteral text v) {c : Char} (hdigit : c.isDigit = false)
    (hplus : c ≠ '+') : c ∉ text := by
  intro hc
  rcases h.chars c hc with hc | hc
  · cases hdigit.symm.trans hc
  · exact hplus hc

theorem RangeText.chars (h : RangeText lo hi text a b) :
    ∀ c ∈ text, c.isDigit = true ∨ c ∈ ['+', '*', '-'] := by
  cases h with
  | star => simp
  | single h =>
    intro c hc
    rcases h.chars c hc with hc | rfl
    · exact Or.inl hc
    · exact Or.inr (by simp)
  | dash h h' =>
    intro c hc
    rcases List.mem_append.mp hc with hc | hc
    · rcases h.chars c hc with hc | rfl
      · exact Or.inl hc
      · exact Or.inr (by simp)
    · rcases List.mem_cons.mp hc with rfl | hc
      · exact Or.inr (by simp)
      · rcases h'.chars c hc with hc | rfl
        · exact Or.inl hc
        · exact Or.inr (by simp)

theorem fieldInt_iff : fieldInt part text = .ok v ↔ IsLiteral text v := by
  rw [← parseU32_iff, fieldInt]
  cases parseU32 text <;> simp

theorem parseRange_iff : parseRange part text lo hi = .ok (a, b) ↔ RangeText lo hi text a b := by
  unfold parseRange
  constructor
  · intro h
    split_ifs at h with hstar
    · cases h
      rw [hstar]
      exact .star
    · rcases splitOnce_cases '-' text with ⟨-, hsplit⟩ | ⟨before, after, rfl, -, hsplit⟩
      · rw [hsplit] at h
        obtain ⟨x, hx, h⟩ := bind_ok.mp h
        cases h
        exact .single (fieldInt_iff.mp hx)
      · rw [hsplit] at h
        obtain ⟨x, hx, h⟩ := bind_ok.mp h
        obtain ⟨y, hy, h⟩ := bind_ok.mp h
        cases h
        exact .dash (fieldInt_iff.mp hx) (fieldInt_iff.mp hy)
  · intro h
    cases h with
    | star => rw [if_pos rfl]
    | single h =>
      have hstar : text ≠ ['*'] := by
        rintro rfl
        exact h.not_mem (c := '*') (by decide) (by decide) (by simp)
      rw [if_neg hstar, splitOnce_absent (h.not_mem (by decide) (by decide))]
      exact bind_ok.mpr ⟨a, fieldInt_iff.mpr h, rfl⟩
    | dash h h' =>
      rename_i before after
      have hstar : before ++ '-' :: after ≠ ['*'] := by
        intro heq
        have hmem : '-' ∈ ['*'] := heq ▸ (by simp)
        simp at hmem
      rw [if_neg hstar, splitOnce_first (h.not_mem (by decide) (by decide))]
      exact bind_ok.mpr ⟨a, fieldInt_iff.mpr h, bind_ok.mpr ⟨b, fieldInt_iff.mpr h', rfl⟩⟩

theorem parseStep_iff : parseStep part = .ok (text, step) ↔
    (part = text ∧ '/' ∉ text ∧ step = 1) ∨
      ∃ text', part = text ++ '/' :: text' ∧ '/' ∉ text ∧ IsLiteral text' step ∧ 1 ≤ step := by
  unfold parseStep
  rcases splitOnce_cases '/' part with ⟨hnot, hsplit⟩ | ⟨before, after, hpart, hnot, hsplit⟩
  · rw [hsplit]
    constructor
    · intro h
      cases h
      exact Or.inl ⟨rfl, hnot, rfl⟩
    · rintro (⟨rfl, -, rfl⟩ | ⟨text', rfl, -⟩)
      · rfl
      · simp at hnot
  · rw [hsplit]
    dsimp only
    constructor
    · intro h
      cases hstep : parseU32 after with
      | none => simp [hstep] at h
      | some x =>
        rw [hstep] at h
        dsimp only at h
        split_ifs at h with hzero
        cases h
        exact Or.inr ⟨after, hpart, hnot, parseU32_iff.mp hstep, by omega⟩
    · rintro (⟨rfl, hslash, -⟩ | ⟨text', heq, hslash, hlit, hpos⟩)
      · rw [hpart] at hslash
        simp at hslash
      · rw [heq, splitOnce_first hslash] at hsplit
        cases hsplit
        rw [parseU32_iff.mpr hlit]
        dsimp only
        rw [if_neg (by omega)]

theorem parsePart_iff : parsePart part lo hi = .ok (a, b, step) ↔ PartText lo hi part ⟨a, b, step⟩ := by
  constructor
  · intro h
    obtain ⟨hlo, hle, hhi, -⟩ := parsePart_ok h
    obtain ⟨⟨text, step'⟩, hstep, h⟩ := bind_ok.mp h
    obtain ⟨⟨a', b'⟩, hrange, h⟩ := bind_ok.mp h
    dsimp only at hrange h
    rw [if_neg (fun hbad ↦ by rw [if_pos hbad] at h; cases h)] at h
    cases h
    rw [parseRange_iff] at hrange
    rcases parseStep_iff.mp hstep with ⟨rfl, -, rfl⟩ | ⟨text', rfl, -, hlit, hpos⟩
    · exact .plain hrange hlo hle hhi
    · exact .stepped hrange hlo hle hhi hlit hpos
  · intro h
    have hslash {text : List Char} (hrange : RangeText lo hi text a b) : '/' ∉ text := fun hmem ↦ by
      simpa using hrange.chars '/' hmem
    cases h with
    | plain hrange hlo hle hhi =>
      refine bind_ok.mpr ⟨_, parseStep_iff.mpr (Or.inl ⟨rfl, hslash hrange, rfl⟩), ?_⟩
      refine bind_ok.mpr ⟨_, parseRange_iff.mpr hrange, ?_⟩
      dsimp only
      rw [if_neg (by omega)]
      rfl
    | stepped hrange hlo hle hhi hlit hpos =>
      refine bind_ok.mpr ⟨_, parseStep_iff.mpr (Or.inr ⟨_, rfl, hslash hrange, hlit, hpos⟩), ?_⟩
      refine bind_ok.mpr ⟨_, parseRange_iff.mpr hrange, ?_⟩
      dsimp only
      rw [if_neg (by omega)]
      rfl

variable {out out' : Finset ℕ}

theorem insertPart_total {p : Progression} (hmax : hi < 2 ^ 32 - 1) (hpart : PartText lo hi part p)
    (out : Finset ℕ) : ∃ out', (do
      let (start, end_, step) ← parsePart part lo hi
      insertRange start end_ step out) = .ok out' ∧ ∀ v, v ∈ out' ↔ v ∈ out ∨ p.Has v := by
  have hok : parsePart part lo hi = .ok (p.start, p.last, p.step) := parsePart_iff.mpr hpart
  obtain ⟨-, hle, hhi, hpos⟩ := parsePart_ok hok
  obtain ⟨set, hset, hmem⟩ := insertRange_total hpos (by omega) hle out
  exact ⟨set, bind_ok.mpr ⟨_, hok, hset⟩, hmem⟩

theorem insertPart_ok (hmax : hi < 2 ^ 32 - 1) (h : (do
      let (start, end_, step) ← parsePart part lo hi
      insertRange start end_ step out) = .ok out') :
    ∃ p, PartText lo hi part p ∧ ∀ v, v ∈ out' ↔ v ∈ out ∨ p.Has v := by
  obtain ⟨⟨a, b, step⟩, hpart, -⟩ := bind_ok.mp h
  rw [parsePart_iff] at hpart
  obtain ⟨set, hset, hmem⟩ := insertPart_total hmax hpart out
  cases hset.symm.trans h
  exact ⟨_, hpart, hmem⟩

theorem PartText.chars {p : Progression} (h : PartText lo hi part p) :
    ∀ c ∈ part, c.isDigit = true ∨ c ∈ ['+', '*', '-', '/'] := by
  have hrange {text : List Char} {a b : ℕ} (h : RangeText lo hi text a b) (c : Char) (hc : c ∈ text) :
      c.isDigit = true ∨ c ∈ ['+', '*', '-', '/'] := by
    rcases h.chars c hc with hc | hc
    · exact Or.inl hc
    · exact Or.inr (List.mem_append_left ['/'] hc)
  cases h with
  | plain h => exact hrange h
  | stepped h _ _ _ hlit =>
    intro c hc
    rcases List.mem_append.mp hc with hc | hc
    · exact hrange h c hc
    · rcases List.mem_cons.mp hc with rfl | hc
      · exact Or.inr (by simp)
      · rcases hlit.chars c hc with hc | rfl
        · exact Or.inl hc
        · exact Or.inr (by simp)

theorem parts_chars {texts : List (List Char)} {parts : List Progression}
    (h : List.Forall₂ (PartText lo hi) texts parts) :
    ∀ text ∈ texts, ∀ c ∈ text, c.isDigit = true ∨ c ∈ ['+', '*', '-', '/'] := by
  induction h with
  | nil => simp
  | cons hp _ ih =>
    intro text htext
    rcases List.mem_cons.mp htext with rfl | htext
    · exact hp.chars
    · exact ih text htext

theorem insertParts_iff (hmax : hi < 2 ^ 32 - 1) (texts : List (List Char)) :
    texts.foldlM
      (fun out part ↦ do
        let (start, end_, step) ← parsePart part lo hi
        insertRange start end_ step out) out = .ok out' ↔
    ∃ parts, List.Forall₂ (PartText lo hi) texts parts ∧
      ∀ v, v ∈ out' ↔ v ∈ out ∨ ∃ p ∈ parts, p.Has v := by
  induction texts generalizing out with
  | nil =>
    constructor
    · intro h
      cases h
      exact ⟨[], .nil, by simp⟩
    · rintro ⟨parts, hparts, hmem⟩
      cases hparts
      have heq : out = out' := by
        ext v
        simp [hmem]
      rw [heq]
      rfl
  | cons text texts ih =>
    rw [List.foldlM_cons]
    constructor
    · intro h
      obtain ⟨mid, hfirst, hrest⟩ := bind_ok.mp h
      obtain ⟨p, hp, hmid⟩ := insertPart_ok hmax hfirst
      obtain ⟨parts, hparts, hmem⟩ := ih.mp hrest
      refine ⟨p :: parts, .cons hp hparts, fun v ↦ ?_⟩
      rw [hmem, hmid, List.exists_mem_cons_iff, or_assoc]
    · rintro ⟨parts, hparts, hmem⟩
      cases hparts with
      | @cons _ p _ parts hp hparts =>
        obtain ⟨mid, hmid, hmid'⟩ := insertPart_total hmax hp out
        refine bind_ok.mpr ⟨mid, hmid, ih.mpr ⟨parts, hparts, fun v ↦ ?_⟩⟩
        rw [hmem, hmid', List.exists_mem_cons_iff, or_assoc]

/-- `parse_field` accepts the fields of the grammar, with their meaning. -/
theorem parseField_iff {field : List Char} (hmax : hi < 2 ^ 32 - 1) :
    parseField field lo hi = .ok out ↔ FieldText lo hi field out := by
  have hmem (parts : List Progression) (v : ℕ) :
      (v ∈ (∅ : Finset ℕ) ∨ ∃ p ∈ parts, p.Has v) ↔ ∃ p ∈ parts, p.Has v := by simp
  rw [parseField, insertParts_iff hmax]
  simp only [hmem]
  constructor
  · rintro ⟨parts, hparts, hset⟩
    exact ⟨_, parts, List.splitOn_ne_nil _ _, (List.intercalate_splitOn ',').symm, hparts, hset⟩
  · rintro ⟨texts, parts, hne, rfl, hparts, hset⟩
    have hcomma : ∀ text ∈ texts, ',' ∉ text := by
      intro text htext hc
      simpa using parts_chars hparts text htext ',' hc
    rw [List.splitOn_intercalate ',' hcomma hne]
    exact ⟨parts, hparts, hset⟩

theorem mem_intercalate {c : Char} {sep : List Char} {texts : List (List Char)}
    (h : c ∈ sep.intercalate texts) : c ∈ sep ∨ ∃ text ∈ texts, c ∈ text := by
  induction texts with
  | nil => cases h
  | cons text texts ih =>
    cases texts with
    | nil => exact Or.inr ⟨text, by simp, by simpa using h⟩
    | cons text' texts =>
      rw [List.intercalate_cons_cons, List.mem_append, List.mem_append] at h
      rcases h with (h | h) | h
      · exact Or.inr ⟨text, by simp, h⟩
      · exact Or.inl h
      · rcases ih h with h | ⟨x, hx, hc⟩
        · exact Or.inl h
        · exact Or.inr ⟨x, List.mem_cons_of_mem text hx, hc⟩

theorem FieldText.at_not_mem {field : List Char} (h : FieldText lo hi field out) : '@' ∉ field := by
  obtain ⟨texts, parts, -, rfl, hparts, -⟩ := h
  intro hc
  rcases mem_intercalate hc with hc | ⟨text, htext, hc⟩
  · simp at hc
  · simpa using parts_chars hparts text htext '@' hc

end Field

section Expression

variable {body digits text : List Char} {n mult : ℤ}

inductive UnitText : Char → ℤ → Prop
  | second : UnitText 's' 1
  | minute : UnitText 'm' 60
  | hour : UnitText 'h' 3600
  | day : UnitText 'd' 86400

/-- A count and its unit. -/
def IntervalText (body : List Char) (n : ℤ) : Prop :=
  ∃ digits unit mult, body = digits ++ [unit] ∧ digits ≠ [] ∧ (∀ c ∈ digits, c.isDigit = true) ∧
    1 ≤ decimal digits ∧ UnitText unit mult ∧ n = decimal digits * mult ∧ InRange n

/-- Five fields, or six with the seconds first, each within its own bounds. -/
inductive CronText (text : List Char) : CronSchedule → Prop
  | five {minute hour dom month dow : List Char} {minutes hours days months dows : Finset ℕ} :
      splitWhitespace text = [minute, hour, dom, month, dow] → FieldText 0 59 minute minutes →
      FieldText 0 23 hour hours → FieldText 1 31 dom days → FieldText 1 12 month months →
      FieldText 0 6 dow dows → CronText text ⟨{0}, minutes, hours, days, months, dows⟩
  | six {second minute hour dom month dow : List Char}
      {seconds minutes hours days months dows : Finset ℕ} :
      splitWhitespace text = [second, minute, hour, dom, month, dow] →
      FieldText 0 59 second seconds → FieldText 0 59 minute minutes → FieldText 0 23 hour hours →
      FieldText 1 31 dom days → FieldText 1 12 month months → FieldText 0 6 dow dows →
      CronText text ⟨seconds, minutes, hours, days, months, dows⟩

/-- A schedule expression without the white space around it. -/
inductive ExprText (text : List Char) : ScheduleExpr → Prop
  | every {gap body : List Char} {n : ℤ} :
      text = "@every".toList ++ gap ++ body → (∀ c ∈ gap, isWhitespace c = true) →
      IntervalText body n → ExprText text (.every n)
  | cron {sched : CronSchedule} : CronText text sched → ExprText text (.cron sched)

theorem unitSeconds_iff {unit : List Char} :
    unitSeconds unit = .ok mult ↔ ∃ c, unit = [c] ∧ UnitText c mult := by
  constructor
  · intro h
    unfold unitSeconds at h
    split_ifs at h with hs hm hh hd
    · cases h
      exact ⟨'s', hs, .second⟩
    · cases h
      exact ⟨'m', hm, .minute⟩
    · cases h
      exact ⟨'h', hh, .hour⟩
    · cases h
      exact ⟨'d', hd, .day⟩
  · rintro ⟨c, rfl, hunit⟩
    cases hunit <;> rfl

theorem UnitText.not_digit {c : Char} (h : UnitText c mult) : c.isDigit = false := by
  cases h <;> rfl

theorem UnitText.bounds {c : Char} (h : UnitText c mult) : 1 ≤ mult := by
  cases h <;> decide

theorem parseEveryInterval_iff : parseEveryInterval body = .ok n ↔ IntervalText body n := by
  constructor
  · intro h
    have hbody := List.takeWhile_append_dropWhile (p := Char.isDigit) (l := body)
    unfold parseEveryInterval at h
    dsimp only at h
    split_ifs at h with _ hempty _ hpos
    obtain ⟨mult, hmult, h⟩ := bind_ok.mp h
    obtain ⟨unit, hunit, htext⟩ := unitSeconds_iff.mp hmult
    rw [not_or] at hempty
    split_ifs at h with hrange
    cases h
    refine ⟨_, unit, mult, ?_, hempty.1, fun c hc ↦ List.mem_takeWhile_imp hc, by omega, htext, rfl,
      hrange⟩
    rw [← hunit]
    exact hbody.symm
  · rintro ⟨digits, unit, mult, rfl, hne, hall, hpos, hunit, rfl, hrange⟩
    obtain ⟨htake, hdrop⟩ := takeWhile_stop [] hall hunit.not_digit
    have hcount : InRange (decimal digits : ℤ) := by
      have hle := hunit.bounds
      have hmul : (decimal digits : ℤ) ≤ decimal digits * mult := le_mul_of_one_le_right (by omega) hle
      unfold InRange at *
      omega
    unfold parseEveryInterval
    dsimp only
    rw [htake, hdrop, if_neg (by simp), if_neg (by simpa using hne), if_neg (not_not.mpr hcount),
      if_neg (by omega)]
    exact bind_ok.mpr ⟨mult, unitSeconds_iff.mpr ⟨unit, rfl, hunit⟩, if_pos hrange⟩

theorem CronSchedule.parse_iff {sched : CronSchedule} :
    CronSchedule.parse text = .ok sched ↔ CronText text sched := by
  constructor
  · intro h
    unfold CronSchedule.parse at h
    split at h
    · rename_i hsplit
      obtain ⟨minutes, hmin, h⟩ := bind_ok.mp h
      obtain ⟨hours, hhour, h⟩ := bind_ok.mp h
      obtain ⟨days, hday, h⟩ := bind_ok.mp h
      obtain ⟨months, hmonth, h⟩ := bind_ok.mp h
      obtain ⟨dows, hdow, h⟩ := bind_ok.mp h
      cases h
      rw [parseField_iff (by omega)] at hmin hhour hday hmonth hdow
      exact .five hsplit hmin hhour hday hmonth hdow
    · rename_i hsplit
      obtain ⟨seconds, hsec, h⟩ := bind_ok.mp h
      obtain ⟨minutes, hmin, h⟩ := bind_ok.mp h
      obtain ⟨hours, hhour, h⟩ := bind_ok.mp h
      obtain ⟨days, hday, h⟩ := bind_ok.mp h
      obtain ⟨months, hmonth, h⟩ := bind_ok.mp h
      obtain ⟨dows, hdow, h⟩ := bind_ok.mp h
      cases h
      rw [parseField_iff (by omega)] at hsec hmin hhour hday hmonth hdow
      exact .six hsplit hsec hmin hhour hday hmonth hdow
    · cases h
  · intro h
    cases h with
    | five hsplit hmin hhour hday hmonth hdow =>
      rw [← parseField_iff (by omega)] at hmin hhour hday hmonth hdow
      rw [CronSchedule.parse, hsplit]
      dsimp only
      rw [hmin, hhour, hday, hmonth, hdow]
      rfl
    | six hsplit hsec hmin hhour hday hmonth hdow =>
      rw [← parseField_iff (by omega)] at hsec hmin hhour hday hmonth hdow
      rw [CronSchedule.parse, hsplit]
      dsimp only
      rw [hsec, hmin, hhour, hday, hmonth, hdow]
      rfl

theorem CronText.at_not_first {sched : CronSchedule} (h : CronText text sched) (rest : List Char) :
    text ≠ '@' :: rest := by
  rintro rfl
  -- The first word begins with the first character, which is not white space.
  obtain ⟨word, words, hwords⟩ : ∃ word words, splitWhitespace ('@' :: rest) = ('@' :: word) :: words := by
    rw [splitWhitespace, List.splitOnP_cons_eq_if_modifyHead, if_neg (by decide)]
    cases hrest : rest.splitOnP isWhitespace with
    | nil => exact absurd hrest (List.splitOnP_ne_nil _ _)
    | cons word words => exact ⟨word, _, by rw [List.modifyHead, List.filter_cons_of_pos (by simp)]⟩
  cases h with
  | five hsplit hmin =>
    cases hwords.symm.trans hsplit
    exact hmin.at_not_mem (by simp)
  | six hsplit hsec =>
    cases hwords.symm.trans hsplit
    exact hsec.at_not_mem (by simp)

theorem isWhitespace_digit {c : Char} (h : c.isDigit = true) : isWhitespace c = false := by
  have hdigit : 48 ≤ c.toNat ∧ c.toNat ≤ 57 := by
    simpa [Char.isDigit, Char.le_def, UInt32.le_iff_toNat_le] using h
  unfold isWhitespace
  simp only [Bool.or_eq_false_iff, Bool.and_eq_false_iff, decide_eq_false_iff_not]
  omega

/-- A text without white space at its ends has none at the end of its last part. -/
theorem trim_tail {whole before : List Char} (h : trim whole = before ++ text) :
    trim text = text.dropWhile isWhitespace := by
  rw [trim, List.rdropWhile_eq_self_iff]
  intro hne
  have hsuffix : text.dropWhile isWhitespace <:+ trim whole := by
    rw [h]
    exact (List.dropWhile_suffix _).trans (List.suffix_append _ _)
  obtain ⟨front, hfront⟩ := hsuffix
  have hlast : (text.dropWhile isWhitespace).getLast hne = (trim whole).getLast (by
      rw [← hfront]
      simp [hne]) := by
    simp only [← hfront]
    rw [List.getLast_append_of_ne_nil _ hne]
  rw [hlast]
  exact List.rdropWhile_last_not isWhitespace _ _

theorem IntervalText.dropWhile_eq (h : IntervalText body n) : body.dropWhile isWhitespace = body := by
  obtain ⟨digits, unit, mult, rfl, hne, hall, -⟩ := h
  cases digits with
  | nil => exact absurd rfl hne
  | cons c digits =>
    have hc := isWhitespace_digit (hall c (by simp))
    rw [List.cons_append, List.dropWhile_cons_of_neg (by simp [hc])]

theorem dropPrefix_every {rest : List Char} :
    text.dropPrefix? "@every".toList = some rest ↔ text = "@every".toList ++ rest := by
  rw [List.dropPrefix?_eq_some_iff]
  constructor
  · rintro ⟨front, rfl, hfront⟩
    rw [eq_of_beq hfront]
  · intro h
    exact ⟨_, h, beq_self_eq_true _⟩

/-- `ScheduleExpr::parse` accepts the expressions of the grammar, with their meaning. -/
theorem ScheduleExpr.parse_iff {expr : String} {parsed : ScheduleExpr} :
    ScheduleExpr.parse expr = .ok parsed ↔ ExprText (trim expr.toList) parsed := by
  unfold ScheduleExpr.parse
  dsimp only
  constructor
  · intro h
    split at h
    · rename_i rest hrest
      rw [dropPrefix_every] at hrest
      obtain ⟨n, hn, h⟩ := bind_ok.mp h
      cases h
      rw [trim_tail hrest, parseEveryInterval_iff] at hn
      have hgap := List.takeWhile_append_dropWhile (p := isWhitespace) (l := rest)
      rw [← hgap, ← List.append_assoc] at hrest
      exact .every hrest (fun c hc ↦ List.mem_takeWhile_imp hc) hn
    · obtain ⟨sched, hsched, h⟩ := bind_ok.mp h
      cases h
      exact .cron (CronSchedule.parse_iff.mp hsched)
  · intro h
    cases h with
    | @every gap body n htext hgap hbody =>
      rw [List.append_assoc] at htext
      rw [dropPrefix_every.mpr htext]
      dsimp only
      rw [trim_tail htext, List.dropWhile_append_of_pos hgap, hbody.dropWhile_eq,
        parseEveryInterval_iff.mpr hbody]
      rfl
    | cron hcron =>
      have hnone : (trim expr.toList).dropPrefix? "@every".toList = none := by
        rw [Option.eq_none_iff_forall_ne_some]
        intro rest hrest
        exact hcron.at_not_first _ (dropPrefix_every.mp hrest)
      rw [hnone]
      dsimp only
      rw [CronSchedule.parse_iff.mpr hcron]
      rfl

/-- The parser of schedules accepts its grammar with the meaning of the grammar, and what it accepts
never makes the search for the next match panic while the dates are in the calendar. -/
theorem schedule_grammar :
    (∀ (field : List Char) (lo hi : ℕ), lo ≤ hi → hi < 2 ^ 32 - 1 →
      (∀ set, parseField field lo hi = .ok set ↔ FieldText lo hi field set) ∧
        (∀ set, parseField field lo hi = .ok set → set.Nonempty ∧ ∀ v ∈ set, lo ≤ v ∧ v ≤ hi) ∧
        Returns (parseField field lo hi)) ∧
      (∀ (expr : String), Returns (ScheduleExpr.parse expr) ∧
        ∀ parsed, ScheduleExpr.parse expr = .ok parsed ↔ ExprText (trim expr.toList) parsed) ∧
      ∀ (expr : List Char) (sched : CronSchedule) (start : NaiveDateTime),
        CronSchedule.parse expr = .ok sched →
        cronNextAfterNaive sched start ≠ .error (.panic "schedule field set is empty") ∧
          (yearOf ((start.secs + 1) / 86400) + 101 ≤ 262142 →
            Returns (cronNextAfterNaive sched start)) ∧
          ∀ text, cronNextAfterNaive sched start = .error (.panic text) →
            ∀ d : NaiveDateTime, start.secs < d.secs → sched.matches_ d = false := by
  refine ⟨fun field lo hi _ hmax ↦ ⟨fun set ↦ parseField_iff hmax, fun set ↦ parseField_within hmax,
    parseField_returns hmax field⟩, fun expr ↦ ⟨ScheduleExpr.parse_returns expr, fun parsed ↦
    ScheduleExpr.parse_iff⟩, fun expr sched start hparse ↦ ?_⟩
  rcases cronNextAfterNaive_cases (CronSchedule.parse_valid hparse) start with
    ⟨m, hm, -⟩ | ⟨he, -⟩ | ⟨e, he, hpanic, hlast, hnone⟩
  · rw [hm]
    exact ⟨by simp, fun _ ↦ returns_ok m, by simp⟩
  · rw [he]
    exact ⟨by simp, fun _ ↦ returns_err _, by simp⟩
  · rw [he]
    refine ⟨?_, fun hdates ↦ ?_, fun _ _ ↦ hnone⟩
    · rcases hpanic with rfl | rfl <;> simp
    · unfold lastYear at hlast
      omega

theorem schedule_grammar_stepped :
    FieldText 0 59 "1-5/2,50".toList {50, 5, 3, 1} ∧ ExprText (trim " @every 5m ".toList) (.every 300) ∧
      Returns (cronNextAfterNaive leapDays29 feb29of2096) := by
  obtain ⟨hfield, hexpr, hsearch⟩ := schedule_grammar
  refine ⟨((hfield "1-5/2,50".toList 0 59 (by decide) (by decide)).1 _).mp (by rfl), ?_, ?_⟩
  · exact ((hexpr " @every 5m ").2 _).mp (by rfl)
  · exact (hsearch "0 0 29 2 *".toList leapDays29 feb29of2096 (by rfl)).2.1 (by decide +kernel)

end Expression

end Honker.Cron
