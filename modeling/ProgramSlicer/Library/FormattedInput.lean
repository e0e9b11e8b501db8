import Mathlib.Data.List.TakeWhile
import Mathlib.Tactic.Common

/-!
Formatted input from a C++ stream over a text that is known in full: `>>` into a
string and into an `int`, in the classic locale. Extraction that fails sets failbit,
extraction that touches the end sets eofbit, and either one stops all later ones.
-/
namespace FormattedInput

structure IStream where
  rest : List Char
  eofbit : Bool
  failbit : Bool
deriving DecidableEq

def reading (text : List Char) : IStream := ⟨text, false, false⟩

/-- `isspace`: the blank and the codes from tab to carriage return. -/
def isSpace (c : Char) : Bool := c.toNat = 32 || (9 ≤ c.toNat && c.toNat ≤ 13)

/-- The sentry skips whitespace. It is false where nothing can be extracted. -/
def sentry (s : IStream) : Bool × IStream :=
  if s.eofbit || s.failbit then (false, { s with failbit := true })
  else
    match s.rest.dropWhile isSpace with
    | [] => (false, ⟨[], true, true⟩)
    | c :: text => (true, reading (c :: text))

/-- `in >> str`; a string that is not extracted keeps its value. -/
def extractString (s : IStream) (str : List Char) : List Char × IStream :=
  match sentry s with
  | (false, s) => (str, s)
  | (true, s) =>
    let rest := s.rest.dropWhile fun c => !isSpace c
    (s.rest.takeWhile fun c => !isSpace c, ⟨rest, rest.isEmpty, false⟩)

inductive Sign where
  | none | plus | minus
deriving DecidableEq

def Sign.text : Sign → List Char
  | .none => []
  | .plus => ['+']
  | .minus => ['-']

def Sign.apply (n : Nat) : Sign → Int
  | .minus => -n
  | _ => n

def takeSign : List Char → Sign × List Char
  | '+' :: text => (.plus, text)
  | '-' :: text => (.minus, text)
  | text => (.none, text)

def INT_MIN : Int := -2147483648
def INT_MAX : Int := 2147483647

/-- `in >> n`. What is no numeral gives 0, what is out of range the nearest `int`. -/
def extractInt (s : IStream) (n : Int) : Int × IStream :=
  match sentry s with
  | (false, s) => (n, s)
  | (true, s) =>
    let (sign, text) := takeSign s.rest
    let digits := text.takeWhile Char.isDigit
    let rest := text.dropWhile Char.isDigit
    let value := sign.apply (Nat.ofDigitChars 10 digits 0)
    if digits = [] then (0, ⟨rest, rest.isEmpty, true⟩)
    else if value < INT_MIN then (INT_MIN, ⟨rest, rest.isEmpty, true⟩)
    else if INT_MAX < value then (INT_MAX, ⟨rest, rest.isEmpty, true⟩)
    else (value, ⟨rest, rest.isEmpty, false⟩)

/-! ### What the fields look like -/

def FitsInt (v : Int) : Prop := INT_MIN ≤ v ∧ v ≤ INT_MAX

instance (v : Int) : Decidable (FitsInt v) := inferInstanceAs (Decidable (_ ∧ _))

structure Numeral where
  sign : Sign
  digits : List Char
  nonempty : digits ≠ []
  numeric : ∀ c ∈ digits, c.isDigit = true

def Numeral.text (n : Numeral) : List Char := n.sign.text ++ n.digits

def Numeral.value (n : Numeral) : Int := n.sign.apply (Nat.ofDigitChars 10 n.digits 0)

def Blank (text : List Char) : Prop := ∀ c ∈ text, isSpace c = true

def WordThen (text word rest : List Char) : Prop :=
  word ≠ [] ∧ (∀ c ∈ word, isSpace c = false) ∧ (∃ c tail, rest = c :: tail ∧ isSpace c = true) ∧
    ∃ blank, Blank blank ∧ text = blank ++ (word ++ rest)

def WordToEnd (text : List Char) : Prop :=
  ∃ blank word, Blank blank ∧ (∀ c ∈ word, isSpace c = false) ∧ text = blank ++ word

/-- An `int` and what follows it, at least the character that ends it. -/
def IntThen (text : List Char) (n : Numeral) (rest : List Char) : Prop :=
  FitsInt n.value ∧ (∃ c tail, rest = c :: tail ∧ c.isDigit = false) ∧
    ∃ blank, Blank blank ∧ text = blank ++ (n.text ++ rest)

def IntToEnd (text : List Char) : Prop :=
  ∃ (blank : List Char) (sign : Sign) (digits : List Char), Blank blank ∧
    (∀ c ∈ digits, c.isDigit = true) ∧ text = blank ++ (sign.text ++ digits)

/-! ### Splitting a text -/

theorem span_append {p : Char → Bool} {front rest : List Char} (all : ∀ c ∈ front, p c = true)
    (stop : ∀ c ∈ rest.head?, p c = false) :
    (front ++ rest).takeWhile p = front ∧ (front ++ rest).dropWhile p = rest := by
  induction front with
  | nil =>
    cases rest with
    | nil => simp
    | cons c rest => simp [stop c (by simp)]
  | cons c front ih =>
    have here := all c (by simp)
    have later := ih fun d hd => all d (by simp [hd])
    simp [here, later]

theorem head_dropWhile {p : Char → Bool} (text : List Char) :
    ∀ c ∈ (text.dropWhile p).head?, p c = false := by
  induction text with
  | nil => simp
  | cons c text ih =>
    rw [List.dropWhile_cons]
    split
    · exact ih
    · rename_i stop
      simpa using stop

theorem all_takeWhile {p : Char → Bool} (text : List Char) : ∀ c ∈ text.takeWhile p, p c = true :=
  fun _ mem => List.mem_takeWhile_imp mem

theorem digit_not_space {c : Char} (digit : c.isDigit = true) : isSpace c = false := by
  have code : 48 ≤ c.toNat ∧ c.toNat ≤ 57 := by
    simpa [Char.isDigit, UInt32.le_iff_toNat_le] using digit
  simp only [isSpace, Bool.or_eq_false_iff, Bool.and_eq_false_iff, decide_eq_false_iff_not]
  omega

theorem sign_not_space {sign : Sign} : ∀ c ∈ sign.text, isSpace c = false := by
  intro c mem
  cases sign with
  | none => cases mem
  | plus => rw [List.mem_singleton.mp mem]; rfl
  | minus => rw [List.mem_singleton.mp mem]; rfl

/-! ### The sentry -/

theorem sentry_reading {blank text : List Char} (skipped : Blank blank)
    (stop : ∀ c ∈ text.head?, isSpace c = false) (some : text ≠ []) :
    sentry (reading (blank ++ text)) = (true, reading text) := by
  unfold sentry reading
  rw [(span_append skipped stop).2]
  cases text with
  | nil => exact absurd rfl some
  | cons c text => rfl

theorem sentry_blank {blank : List Char} (skipped : Blank blank) :
    sentry (reading blank) = (false, ⟨[], true, true⟩) := by
  have none := (@span_append isSpace blank [] skipped (by simp)).2
  rw [List.append_nil] at none
  unfold sentry reading
  rw [none]
  rfl

theorem sentry_stopped {s : IStream} (stopped : s.eofbit = true ∨ s.failbit = true) :
    sentry s = (false, { s with failbit := true }) := by
  unfold sentry
  rw [if_pos]
  simpa using stopped

theorem blank_or (text : List Char) : Blank text ∨ ∃ blank c tail, Blank blank ∧
    isSpace c = false ∧ text = blank ++ c :: tail := by
  have split := List.takeWhile_append_dropWhile (p := isSpace) (l := text)
  have first := head_dropWhile (p := isSpace) text
  have skipped : Blank (text.takeWhile isSpace) := all_takeWhile text
  cases rest : text.dropWhile isSpace with
  | nil =>
    rw [rest, List.append_nil] at split
    exact .inl (split ▸ skipped)
  | cons c tail =>
    rw [rest] at split first
    exact .inr ⟨_, c, tail, skipped, first c (by simp), split.symm⟩

/-! ### A word -/

theorem extractString_stopped {s : IStream} (stopped : s.eofbit = true ∨ s.failbit = true)
    (str : List Char) : extractString s str = (str, { s with failbit := true }) := by
  unfold extractString
  rw [sentry_stopped stopped]

theorem extractString_then {text word rest : List Char} (here : WordThen text word rest)
    (str : List Char) : extractString (reading text) str = (word, reading rest) := by
  obtain ⟨some, solid, ⟨d, tail, rfl, ends⟩, blank, skipped, rfl⟩ := here
  obtain ⟨c, word, rfl⟩ := List.exists_cons_of_ne_nil some
  have entered := @sentry_reading blank (c :: word ++ d :: tail) skipped
    (by simpa using solid c (by simp)) (by simp)
  obtain ⟨taken, left⟩ := @span_append (fun c => !isSpace c) (c :: word) (d :: tail)
    (fun e he => by simp [solid e he]) (by simp [ends])
  have taken : (c :: (word ++ d :: tail)).takeWhile (fun c => !isSpace c) = c :: word := taken
  have left : (c :: (word ++ d :: tail)).dropWhile (fun c => !isSpace c) = d :: tail := left
  unfold extractString
  rw [entered]
  simp only [reading, List.cons_append, taken, left]
  rfl

theorem extractString_end {text : List Char} (here : WordToEnd text) (str : List Char) :
    (extractString (reading text) str).2.eofbit = true := by
  obtain ⟨blank, word, skipped, solid, rfl⟩ := here
  unfold extractString
  cases word with
  | nil => rw [List.append_nil, sentry_blank skipped]
  | cons c word =>
    have entered := @sentry_reading blank (c :: word) skipped
      (by simpa using solid c (by simp)) (by simp)
    have left := (@span_append (fun c => !isSpace c) (c :: word) []
      (fun e he => by simp [solid e he]) (by simp)).2
    rw [List.append_nil] at left
    rw [entered]
    simp [reading, left]

theorem word_cases (text : List Char) : WordToEnd text ∨ ∃ word rest, WordThen text word rest := by
  rcases blank_or text with all | ⟨blank, c, tail, skipped, first, rfl⟩
  · exact .inl ⟨text, [], all, by simp, by simp⟩
  · have split := List.takeWhile_append_dropWhile (p := fun c => !isSpace c) (l := c :: tail)
    have solid : ∀ d ∈ (c :: tail).takeWhile fun c => !isSpace c, isSpace d = false :=
      fun d hd => by simpa using all_takeWhile (c :: tail) d hd
    have stop := head_dropWhile (p := fun c => !isSpace c) (c :: tail)
    cases rest : (c :: tail).dropWhile fun c => !isSpace c with
    | nil =>
      rw [rest, List.append_nil] at split
      exact .inl ⟨blank, c :: tail, skipped, split ▸ solid, rfl⟩
    | cons d rest' =>
      rw [rest] at split stop
      refine .inr ⟨(c :: tail).takeWhile fun c => !isSpace c, d :: rest', ?_, solid,
        ⟨d, rest', rfl, by simpa using stop d (by simp)⟩, blank, skipped, by rw [split]⟩
      simp [first]

/-! ### A number -/

theorem extractInt_stopped {s : IStream} (stopped : s.eofbit = true ∨ s.failbit = true)
    (n : Int) : extractInt s n = (n, { s with failbit := true }) := by
  unfold extractInt
  rw [sentry_stopped stopped]

theorem takeSign_text {sign : Sign} {text : List Char}
    (unsigned : sign = .none → ∀ c ∈ text.head?, c ≠ '+' ∧ c ≠ '-') :
    takeSign (sign.text ++ text) = (sign, text) := by
  cases sign with
  | plus => rfl
  | minus => rfl
  | none =>
    cases text with
    | nil => rfl
    | cons c text =>
      obtain ⟨noPlus, noMinus⟩ := unsigned rfl c (by simp)
      unfold takeSign Sign.text
      split
      · rename_i same
        exact absurd (List.cons.inj same).1 noPlus
      · rename_i same
        exact absurd (List.cons.inj same).1 noMinus
      · rfl

theorem digit_no_sign {c : Char} (digit : c.isDigit = true) : c ≠ '+' ∧ c ≠ '-' := by
  constructor <;> rintro rfl <;> revert digit <;> decide

theorem takeSign_split (text : List Char) : ∃ (sign : Sign) (rest : List Char),
    text = sign.text ++ rest ∧ (sign = .none → ∀ c ∈ rest.head?, c ≠ '+' ∧ c ≠ '-') := by
  cases text with
  | nil => exact ⟨.none, [], rfl, by simp⟩
  | cons c text =>
    by_cases plus : c = '+'
    · exact ⟨.plus, text, by rw [plus]; rfl, by simp⟩
    · by_cases minus : c = '-'
      · exact ⟨.minus, text, by rw [minus]; rfl, by simp⟩
      · exact ⟨.none, c :: text, rfl, by simp [plus, minus]⟩

section Number
variable {blank digits rest : List Char} {sign : Sign} (skipped : Blank blank)
  (unsigned : sign = .none → ∀ c ∈ (digits ++ rest).head?, c ≠ '+' ∧ c ≠ '-')
  (solid : ∀ c ∈ (sign.text ++ (digits ++ rest)).head?, isSpace c = false)
  (some : sign.text ++ (digits ++ rest) ≠ []) (numeric : ∀ c ∈ digits, c.isDigit = true)
  (stop : ∀ c ∈ rest.head?, c.isDigit = false) (n : Int)
include skipped unsigned solid some numeric stop

/-- The one run of digits that is read. -/
theorem extractInt_eq : extractInt (reading (blank ++ (sign.text ++ (digits ++ rest)))) n =
    let value := sign.apply (Nat.ofDigitChars 10 digits 0)
    if digits = [] then (0, ⟨rest, rest.isEmpty, true⟩)
    else if value < INT_MIN then (INT_MIN, ⟨rest, rest.isEmpty, true⟩)
    else if INT_MAX < value then (INT_MAX, ⟨rest, rest.isEmpty, true⟩)
    else (value, ⟨rest, rest.isEmpty, false⟩) := by
  obtain ⟨taken, left⟩ := span_append numeric stop
  unfold extractInt
  rw [sentry_reading skipped solid some]
  simp only [reading, takeSign_text unsigned, taken, left]

theorem extractInt_fits (here : digits ≠ [])
    (fits : FitsInt (sign.apply (Nat.ofDigitChars 10 digits 0))) :
    extractInt (reading (blank ++ (sign.text ++ (digits ++ rest)))) n =
      (sign.apply (Nat.ofDigitChars 10 digits 0), ⟨rest, rest.isEmpty, false⟩) := by
  obtain ⟨low, high⟩ := fits
  rw [extractInt_eq skipped unsigned solid some numeric stop]
  simp only [if_neg here, if_neg (Int.not_lt.mpr low), if_neg (Int.not_lt.mpr high)]

theorem extractInt_fails
    (bad : digits = [] ∨ ¬ FitsInt (sign.apply (Nat.ofDigitChars 10 digits 0))) :
    ∃ v, extractInt (reading (blank ++ (sign.text ++ (digits ++ rest)))) n =
      (v, ⟨rest, rest.isEmpty, true⟩) := by
  rw [extractInt_eq skipped unsigned solid some numeric stop]
  by_cases none : digits = []
  · exact ⟨0, if_pos none⟩
  · by_cases low : sign.apply (Nat.ofDigitChars 10 digits 0) < INT_MIN
    · exact ⟨INT_MIN, by simp only [if_neg none, if_pos low]⟩
    · by_cases high : INT_MAX < sign.apply (Nat.ofDigitChars 10 digits 0)
      · exact ⟨INT_MAX, by simp only [if_neg none, if_neg low, if_pos high]⟩
      · exact absurd ⟨Int.not_lt.mp low, Int.not_lt.mp high⟩ (bad.resolve_left none)

end Number

theorem Numeral.solid (n : Numeral) (rest : List Char) :
    ∀ c ∈ (n.sign.text ++ (n.digits ++ rest)).head?, isSpace c = false := by
  obtain ⟨sign, digits, nonempty, numeric⟩ := n
  obtain ⟨d, digits, rfl⟩ := List.exists_cons_of_ne_nil nonempty
  cases sign
  · simpa [Sign.text] using digit_not_space (numeric d (by simp))
  · simp [Sign.text]; decide
  · simp [Sign.text]; decide

theorem Numeral.unsigned (n : Numeral) (rest : List Char) :
    ∀ c ∈ (n.digits ++ rest).head?, c ≠ '+' ∧ c ≠ '-' := by
  obtain ⟨sign, digits, nonempty, numeric⟩ := n
  obtain ⟨d, digits, rfl⟩ := List.exists_cons_of_ne_nil nonempty
  simpa using digit_no_sign (numeric d (by simp))

theorem extractInt_then {text rest : List Char} {n : Numeral} (here : IntThen text n rest)
    (old : Int) : extractInt (reading text) old = (n.value, reading rest) := by
  obtain ⟨fits, ⟨c, tail, rfl, stop⟩, blank, skipped, rfl⟩ := here
  unfold Numeral.text
  rw [List.append_assoc]
  exact extractInt_fits skipped (fun _ => n.unsigned _) (n.solid _) (by simp) n.numeric
    (by simpa using stop) old n.nonempty fits

theorem extractInt_misfit {n : Numeral} (outside : ¬ FitsInt n.value) {blank : List Char}
    (skipped : Blank blank) {c : Char} (stop : c.isDigit = false) (tail : List Char) (old : Int) :
    ∃ v, extractInt (reading (blank ++ (n.text ++ c :: tail))) old =
      (v, ⟨c :: tail, false, true⟩) := by
  unfold Numeral.text
  rw [List.append_assoc]
  exact extractInt_fails skipped (fun _ => n.unsigned _) (n.solid _) (by simp) n.numeric
    (by simpa using stop) old (.inr outside)

theorem extractInt_end {text : List Char} (here : IntToEnd text) (old : Int) :
    (extractInt (reading text) old).2.eofbit = true := by
  obtain ⟨blank, sign, digits, skipped, numeric, rfl⟩ := here
  by_cases none : sign.text ++ digits = []
  · rw [none, List.append_nil]
    unfold extractInt
    rw [sentry_blank skipped]
  · rw [← List.append_nil digits] at none ⊢
    have solid : ∀ c ∈ (sign.text ++ (digits ++ [])).head?, isSpace c = false := by
      intro c hc
      have mem := List.mem_of_mem_head? hc
      rcases List.mem_append.mp mem with inSign | inDigits
      · exact sign_not_space c inSign
      · exact digit_not_space (numeric c (by simpa using inDigits))
    have unsigned : sign = .none → ∀ c ∈ (digits ++ []).head?, c ≠ '+' ∧ c ≠ '-' := by
      intro _ c hc
      exact digit_no_sign (numeric c (by simpa using List.mem_of_mem_head? hc))
    rw [extractInt_eq skipped unsigned solid none numeric (by simp)]
    dsimp only
    split_ifs <;> rfl

theorem int_cases (text : List Char) : IntToEnd text ∨ (∃ n rest, IntThen text n rest) ∨
    ∀ old, ∃ v rest, extractInt (reading text) old = (v, ⟨rest, false, true⟩) := by
  rcases blank_or text with all | ⟨blank, c, tail, skipped, first, rfl⟩
  · exact .inl ⟨text, .none, [], all, by simp, by simp [Sign.text]⟩
  · obtain ⟨sign, unsignedText, split, unsigned⟩ := takeSign_split (c :: tail)
    have parts := List.takeWhile_append_dropWhile (p := Char.isDigit) (l := unsignedText)
    have numeric := all_takeWhile (p := Char.isDigit) unsignedText
    have stop := head_dropWhile (p := Char.isDigit) unsignedText
    generalize unsignedText.takeWhile Char.isDigit = digits at *
    generalize unsignedText.dropWhile Char.isDigit = rest at *
    subst parts
    cases rest with
    | nil =>
      rw [List.append_nil] at split
      exact .inl ⟨blank, sign, digits, skipped, numeric, by rw [split]⟩
    | cons d rest =>
      right
      have solid : ∀ e ∈ (sign.text ++ (digits ++ d :: rest)).head?, isSpace e = false := by
        rw [← split]
        simpa using first
      by_cases bad : digits = [] ∨ ¬ FitsInt (sign.apply (Nat.ofDigitChars 10 digits 0))
      · right
        intro old
        obtain ⟨v, fails⟩ :=
          extractInt_fails skipped unsigned solid (by simp) numeric stop old bad
        rw [split]
        exact ⟨v, d :: rest, fails⟩
      · rw [not_or, not_not] at bad
        left
        refine ⟨⟨sign, digits, bad.1, numeric⟩, d :: rest, bad.2,
          ⟨d, rest, rfl, stop d (by simp)⟩, blank, skipped, ?_⟩
        rw [split]
        simp [Numeral.text]

end FormattedInput
