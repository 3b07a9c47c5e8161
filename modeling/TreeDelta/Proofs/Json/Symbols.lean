import TreeDelta.Json.Reader
import TreeDelta.Json.Writer

/-!
# Reading symbols

What is written for a string is read back character by character, and what is written for a counting
number digit by digit. A numeral has no end of its own: it is over when a character comes that does
not continue it, or the text ends. So a value that has been read is described by how the reader goes
on from there and not by the state it is in.
-/

namespace TreeDelta.Json

/-- Take the characters of a text one after the other. -/
def feed (limit : Nat) (state : ReadState) (text : List Char) : Except ReadError ReadState :=
  text.foldlM (step limit) state

/-- Without text the state stays as it is. -/
@[simp] theorem feed_nil (limit : Nat) (state : ReadState) : feed limit state [] = .ok state := rfl

/-- The first character takes one step, and the others go on from the state that it leads to. -/
@[simp] theorem feed_cons (limit : Nat) (state : ReadState) (c : Char) (text : List Char) :
    feed limit state (c :: text) = (step limit state c).bind fun next => feed limit next text :=
  List.foldlM_cons

/-- Two texts, one behind the other, are read one after the other. -/
@[simp] theorem feed_append (limit : Nat) (state : ReadState) (text further : List Char) :
    feed limit state (text ++ further) =
      (feed limit state text).bind fun next => feed limit next further :=
  List.foldlM_append

variable {limit : Nat} {frames : List Frame}

/-! ### Strings -/

/-- The hexadecimal digit of a number is read as the number, and takes one byte. -/
theorem hex_value_digit : ∀ value < 16, hexValue? (hexDigit value) = some value ∧
    (hexDigit value).utf8Size = 1 ∧ hexDigit value ≠ '"' := by
  decide

/-- A digit of a code unit that is not its last is taken. -/
theorem step_digit (role : StringRole) (gathered : List Char) (codeUnit : Nat) {bytes digit : Nat}
    (further : bytes < 3) (small : digit < 16) :
    step limit ⟨frames, .string role gathered (.unit none bytes (some codeUnit))⟩ (hexDigit digit) =
      .ok ⟨frames, .string role gathered
        (.unit none (bytes + 1) (some (16 * codeUnit + digit)))⟩ := by
  obtain ⟨value, size, plain⟩ := hex_value_digit digit small
  have room : bytes + 1 < 4 := by omega
  simp [step, stringStep, value, size, room, Except.map]

/-- The last digit of a code unit gives the character, unless the code unit is half of a pair. -/
theorem step_last_digit (role : StringRole) (gathered : List Char) {codeUnit digit : Nat}
    (small : digit < 16) (alone : 16 * codeUnit + digit < 0xD800) :
    step limit ⟨frames, .string role gathered (.unit none 3 (some codeUnit))⟩ (hexDigit digit) =
      .ok ⟨frames, .string role (Char.ofNat (16 * codeUnit + digit) :: gathered) .none⟩ := by
  obtain ⟨value, size, plain⟩ := hex_value_digit digit small
  have notHigh : ¬ 0xD800 ≤ 16 * codeUnit + digit := by omega
  have notLow : ¬ 0xDC00 ≤ 16 * codeUnit + digit := by omega
  simp [step, stringStep, value, size, finishUnit, isHighSurrogate, isLowSurrogate, notHigh, notLow,
    Except.map]

/-- A character that is written by number is read back. -/
theorem feed_numbered (role : StringRole) (gathered : List Char) {code : Nat} (small : code < 32) :
    feed limit ⟨frames, .string role gathered .none⟩
        ['\\', 'u', '0', '0', hexDigit (code / 16), hexDigit (code % 16)] =
      .ok ⟨frames, .string role (Char.ofNat code :: gathered) .none⟩ := by
  have opened : feed limit ⟨frames, .string role gathered .none⟩ ['\\', 'u', '0', '0'] =
      .ok ⟨frames, .string role gathered (.unit none 2 (some 0))⟩ := rfl
  have first : step limit ⟨frames, .string role gathered (.unit none 2 (some 0))⟩
      (hexDigit (code / 16)) =
        .ok ⟨frames, .string role gathered (.unit none 3 (some (code / 16)))⟩ := by
    simpa using step_digit role gathered 0 (by omega : 2 < 3) (by omega : code / 16 < 16)
  have last : step limit ⟨frames, .string role gathered (.unit none 3 (some (code / 16)))⟩
      (hexDigit (code % 16)) = .ok ⟨frames, .string role (Char.ofNat code :: gathered) .none⟩ := by
    rw [step_last_digit role gathered (by omega) (by omega), Nat.div_add_mod]
  change feed limit _ (['\\', 'u', '0', '0'] ++ [hexDigit (code / 16), hexDigit (code % 16)]) = _
  rw [feed_append, opened]
  simp [Except.bind, first, last]

/-- What is written for a character inside a string is read as the character. -/
theorem feed_escaped (role : StringRole) (gathered : List Char) (c : Char) :
    feed limit ⟨frames, .string role gathered .none⟩ (escapeChar c) =
      .ok ⟨frames, .string role (c :: gathered) .none⟩ := by
  unfold escapeChar
  split
  · next same => subst same; rfl
  split
  · next same => subst same; rfl
  split
  · next same => subst same; rfl
  split
  · next same => subst same; rfl
  split
  · next same => subst same; rfl
  split
  · next same => subst same; rfl
  split
  · next same => subst same; rfl
  split
  · next small =>
    rw [feed_numbered role gathered small, Char.ofNat_toNat]
  · next quote backslash _ _ _ _ _ large =>
    simp [step, stringStep, quote, backslash, large, Except.map, Except.bind]

/-- What is written for a text is read as its characters. -/
theorem feed_escaped_text (role : StringRole) (gathered text : List Char) :
    feed limit ⟨frames, .string role gathered .none⟩ (text.flatMap escapeChar) =
      .ok ⟨frames, .string role (text.reverse ++ gathered) .none⟩ := by
  induction text generalizing gathered with
  | nil => rfl
  | cons c rest inductionHypothesis =>
    rw [List.flatMap_cons, feed_append, feed_escaped]
    simp [Except.bind, inductionHypothesis]

/-- A string is read up to its closing quote. -/
theorem feed_string (role : StringRole) (text : String) :
    feed limit ⟨frames, .string role [] .none⟩ (text.toList.flatMap escapeChar ++ ['"']) =
      .ok ⟨frames, match role with
        | .value => .done (.string text)
        | .key fields => .colon fields text⟩ := by
  rw [feed_append, feed_escaped_text]
  cases role <;> simp [Except.bind, step, finishString]

/-! ### Finished values -/

/-- Whether a character ends what stands before it. -/
def Delimits (c : Char) : Prop := c = ',' ∨ c = ']' ∨ c = '}' ∨ c = '\n'

/-- Whether a value has been read as far as what follows can tell: the text may end, or a character
may come that ends the value. -/
structure Finished (frames : List Frame) (value : Value) (state : ReadState) : Prop where
  ends : finish state = finish ⟨frames, .done value⟩
  goesOn : ∀ limit c, Delimits c → step limit state c = step limit ⟨frames, .done value⟩ c

/-- A value that is done is finished. -/
theorem finished_done (frames : List Frame) (value : Value) :
    Finished frames value ⟨frames, .done value⟩ :=
  ⟨rfl, fun _ _ _ => rfl⟩

/-- After a finished value the reader goes on as after one that is done. -/
theorem Finished.feed {value : Value} {state : ReadState} (finished : Finished frames value state)
    {c : Char} (delimits : Delimits c) (text : List Char) :
    feed limit state (c :: text) = Json.feed limit ⟨frames, .done value⟩ (c :: text) := by
  rw [feed_cons, feed_cons, finished.goesOn limit c delimits]

/-! ### Counting numbers -/

/-- A character that ends a value does not continue a numeral. -/
theorem numeral_over {numeral : Numeral} {state : NumeralState}
    (whole : state = .zero ∨ state = .whole) {c : Char} (delimits : Delimits c) :
    numeralStep numeral state c = none := by
  rcases whole with rfl | rfl <;> rcases delimits with rfl | rfl | rfl | rfl <;> rfl

/-- Digits continue the whole part of a numeral. -/
theorem feed_digits (limit : Nat) (frames : List Frame) (gathered digits : List Char)
    (are : ∀ c ∈ digits, c.isDigit = true) :
    feed limit ⟨frames, .numeral ⟨false, gathered, [], none⟩ .whole⟩ digits =
      .ok ⟨frames, .numeral ⟨false, digits.reverse ++ gathered, [], none⟩ .whole⟩ := by
  induction digits generalizing gathered with
  | nil => rfl
  | cons c rest inductionHypothesis =>
    have first := are c List.mem_cons_self
    have later := inductionHypothesis (c :: gathered) fun other member =>
      are other (List.mem_cons_of_mem c member)
    simp [step, numeralStep, first, Except.bind, later]

/-- The digits of a number have its value. -/
theorem digits_value (count : Nat) : digitsValue (Nat.toDigits 10 count) = count :=
  Nat.ofDigitChars_ten_toDigits

/-- A numeral that is over stands for the number of its digits. -/
theorem numeral_finished {count : Nat} (small : count < Numeral.significandBound)
    {state : NumeralState} (whole : state = .zero ∨ state = .whole) :
    Finished frames (.natural count)
      ⟨frames, .numeral ⟨false, (Nat.toDigits 10 count).reverse, [], none⟩ state⟩ := by
  have integer :
      Numeral.integer? ⟨false, Nat.toDigits 10 count, [], none⟩ = some (count : Int) := by
    rw [Numeral.integer?, if_pos ⟨rfl, rfl⟩]
    simp only [digits_value, Bool.false_eq_true, ↓reduceIte]
    rw [if_pos small]
  have number : finishNumeral ⟨false, (Nat.toDigits 10 count).reverse, [], none⟩ =
      .ok (.natural count) := by
    have written : Numeral.inWrittenOrder ⟨false, (Nat.toDigits 10 count).reverse, [], none⟩ =
        ⟨false, Nat.toDigits 10 count, [], none⟩ := by
      simp [Numeral.inWrittenOrder]
    rw [finishNumeral, written, Numeral.number?, integer]
    rfl
  have complete : state.complete = true := by rcases whole with rfl | rfl <;> rfl
  constructor
  · simp [finish, complete, number, Except.bind]
  · intro limit c delimits
    simp [step, numeral_over whole delimits, complete, number, Except.bind]

/-- A number above zero does not begin with the digit zero. -/
theorem leading_digit {count : Nat} (positive : 0 < count) :
    ∃ first rest, Nat.toDigits 10 count = first :: rest ∧ first ≠ '0' := by
  induction count using Nat.base_induction 10 (by decide) with
  | single digit small =>
    refine ⟨digit.digitChar, [], Nat.toDigits_of_lt_base small, ?_⟩
    have digits : ∀ digit < 10, 0 < digit → digit.digitChar ≠ '0' := by decide
    exact digits digit small positive
  | digit upper digit small upperPositive inductionHypothesis =>
    obtain ⟨first, rest, digits, nonzero⟩ := inductionHypothesis upperPositive
    refine ⟨first, rest ++ Nat.toDigits 10 digit, ?_, nonzero⟩
    rw [← Nat.toDigits_append_toDigits (by decide) upperPositive small, digits, List.cons_append]

/-- Whether a value may begin, with the character that begins it standing for itself. -/
def Accepts (mode : Mode) : Prop := mode = .value ∨ mode = .firstElement

/-- Where a value may begin, its first character decides what it is. -/
theorem step_first (limit : Nat) (frames : List Frame) {mode : Mode} (accepts : Accepts mode)
    {c : Char} (symbol : isSeparator c = false) (opens : c ≠ ']') :
    step limit ⟨frames, mode⟩ c = startValue limit frames c := by
  rcases accepts with rfl | rfl <;> simp [step, symbol, opens]

/-- What is written for a counting number is read as the number. -/
theorem feed_number (limit : Nat) (frames : List Frame) {mode : Mode} (accepts : Accepts mode)
    {count : Nat} (small : count < Numeral.significandBound) :
    ∃ state, feed limit ⟨frames, mode⟩ (Nat.toDigits 10 count) = .ok state ∧
      Finished frames (.natural count) state := by
  have digits (c : Char) (member : c ∈ Nat.toDigits 10 count) : c.isDigit = true :=
    Nat.isDigit_of_mem_toDigits (by decide) (by decide) member
  rcases Nat.eq_zero_or_pos count with rfl | positive
  · refine ⟨⟨frames, .numeral ⟨false, ['0'], [], none⟩ .zero⟩, ?_,
      numeral_finished small (.inl rfl)⟩
    rw [Nat.toDigits_zero, feed_cons, step_first limit frames accepts rfl (by decide)]
    rfl
  · obtain ⟨first, rest, written, nonzero⟩ := leading_digit positive
    have isDigit : first.isDigit = true := digits first (written ▸ List.mem_cons_self)
    have later := feed_digits limit frames [first] rest fun c member =>
      digits c (written ▸ List.mem_cons_of_mem first member)
    have different (symbol : Char) (other : symbol.isDigit = false) : first ≠ symbol := by
      rintro rfl
      rw [other] at isDigit
      cases isDigit
    have separator : isSeparator first = false := by
      simp [isSeparator, different]
    have started : startValue limit frames first =
        .ok ⟨frames, .numeral ⟨false, [first], [], none⟩ .whole⟩ := by
      simp [startValue, startNumeral, different, nonzero, isDigit]
    refine ⟨_, ?_, numeral_finished small (.inr rfl)⟩
    rw [written, feed_cons, step_first limit frames accepts separator (different ']' rfl), started]
    simpa [Except.bind] using later

end TreeDelta.Json
