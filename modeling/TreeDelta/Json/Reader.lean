import TreeDelta.Json.Numeral

/-!
# Reading the exchange text

The reader is a machine that takes one character at a time. Its state is a stack of the containers
that are still open and a mode that says what may come next, so every text is read by one fold over
its characters, and what is left unfinished when the text ends is visible in the state.

A text fails in one of two ways. It is *incomplete* when it ends where more was needed, and it is
*malformed* when a character comes that no value allows, when a numeral is too large, or when more
containers are open than the reader admits. The first character that cannot be taken decides.

Only blank, tab, line feed and carriage return separate symbols. Inside a string everything is
taken as it is but the quote, the backslash and the control characters below U+0020, which are not
allowed. An escape by number names a code unit: two halves of a surrogate pair must follow each
other, and its four bytes are taken from the text before any of them is judged.
-/

namespace TreeDelta.Json

/-- Why a text is no value. -/
inductive ReadError where
  | incomplete
  | malformed
  deriving DecidableEq, Repr, Inhabited

/-- A container that is still open: the elements so far, latest first, or the fields so far in
document order and the key whose value is being read. -/
inductive Frame where
  | array (elements : List Value)
  | object (fields : List (String × Value)) (key : String)
  deriving Inhabited

/-- Where a string stands: it is a value, or a key after the fields so far. -/
inductive StringRole where
  | value
  | key (fields : List (String × Value))
  deriving Inhabited

/-- What an escape inside a string has brought so far. -/
inductive EscapeState where
  /-- No escape is open. -/
  | none
  /-- A backslash has been read. -/
  | opened
  /-- The digits of a code unit are being read; `bytes` of them have been taken so far, and `unit?`
  is their value if all are hexadecimal. `high?` is the first half of a surrogate pair. -/
  | unit (high? : Option Nat) (bytes : Nat) (unit? : Option Nat)
  /-- The first half of a surrogate pair has been read; a backslash must follow. -/
  | pair (high : Nat)
  /-- The first half and a backslash have been read; the letter of a code unit must follow. -/
  | pairOpened (high : Nat)
  deriving DecidableEq, Repr, Inhabited

/-- The part of a numeral that is being read. Parts that must not be empty are told apart from
parts that have begun. -/
inductive NumeralState where
  /-- After the minus sign. -/
  | sign
  /-- After a leading zero, which no digit may follow. -/
  | zero
  /-- Inside the whole part. -/
  | whole
  /-- After the point. -/
  | point
  /-- Inside the fraction. -/
  | fraction
  /-- After the exponent's letter. -/
  | exponentMark
  /-- After the exponent's sign. -/
  | exponentSign
  /-- Inside the exponent. -/
  | exponent
  deriving DecidableEq, Repr, Inhabited

/-- What the reader expects next. The characters of strings and the digits of numerals gathered so
far are held latest first. -/
inductive Mode where
  /-- A value. -/
  | value
  /-- A value, or the end of the array that has just been opened. -/
  | firstElement
  /-- A key, or the end of the object that has just been opened. -/
  | firstKey
  /-- A key, after the fields so far. -/
  | nextKey (fields : List (String × Value))
  /-- The colon after a key. -/
  | colon (fields : List (String × Value)) (key : String)
  /-- What may follow a finished value. -/
  | done (value : Value)
  /-- The rest of one of the three words. -/
  | word (rest : List Char) (value : Value)
  /-- The rest of a string. -/
  | string (role : StringRole) (gathered : List Char) (escape : EscapeState)
  /-- The rest of a numeral. -/
  | numeral (numeral : Numeral) (state : NumeralState)
  deriving Inhabited

/-- A state of the reader. -/
structure ReadState where
  frames : List Frame
  mode : Mode
  deriving Inhabited

/-- The characters that may stand between symbols. -/
def isSeparator (c : Char) : Bool := c = ' ' || c = '\t' || c = '\n' || c = '\r'

/-- The value of a hexadecimal digit. -/
def hexValue? (c : Char) : Option Nat :=
  if '0' ≤ c ∧ c ≤ '9' then some (c.toNat - '0'.toNat)
  else if 'a' ≤ c ∧ c ≤ 'f' then some (c.toNat - 'a'.toNat + 10)
  else if 'A' ≤ c ∧ c ≤ 'F' then some (c.toNat - 'A'.toNat + 10)
  else none

/-- Whether a code unit is the first half of a surrogate pair. -/
def isHighSurrogate (codeUnit : Nat) : Bool := 0xD800 ≤ codeUnit && codeUnit < 0xDC00

/-- Whether a code unit is the second half of a surrogate pair. -/
def isLowSurrogate (codeUnit : Nat) : Bool := 0xDC00 ≤ codeUnit && codeUnit < 0xE000

/-- The character that a surrogate pair stands for. -/
def pairedChar (high low : Nat) : Char :=
  Char.ofNat (0x10000 + (high - 0xD800) * 0x400 + (low - 0xDC00))

/-- The character of a one-letter escape. -/
def escapedChar? (c : Char) : Option Char :=
  if c = '"' then some '"'
  else if c = '\\' then some '\\'
  else if c = '/' then some '/'
  else if c = 'b' then some '\x08'
  else if c = 'f' then some '\x0c'
  else if c = 'n' then some '\n'
  else if c = 'r' then some '\r'
  else if c = 't' then some '\t'
  else none

/-- The container as a finished value. -/
def Frame.close : Frame → Value
  | .array elements => .array elements.reverse
  | .object fields _ => .object fields

/-- Open a container, if fewer than `limit` are open. -/
def openContainer (limit : Nat) (frames : List Frame) (frame : Frame) (mode : Mode) :
    Except ReadError ReadState :=
  if frames.length < limit then .ok ⟨frame :: frames, mode⟩ else .error .malformed

/-- The first digits of a numeral. -/
def startNumeral (c : Char) : Option (Numeral × NumeralState) :=
  if c = '-' then some (⟨true, [], [], none⟩, .sign)
  else if c = '0' then some (⟨false, [c], [], none⟩, .zero)
  else if c.isDigit then some (⟨false, [c], [], none⟩, .whole)
  else none

/-- Take the first character of a value. -/
def startValue (limit : Nat) (frames : List Frame) (c : Char) : Except ReadError ReadState :=
  if c = '"' then .ok ⟨frames, .string .value [] .none⟩
  else if c = '[' then openContainer limit frames (.array []) .firstElement
  else if c = '{' then openContainer limit frames (.object [] "") .firstKey
  else if c = 'n' then .ok ⟨frames, .word ['u', 'l', 'l'] .null⟩
  else if c = 't' then .ok ⟨frames, .word ['r', 'u', 'e'] (.bool true)⟩
  else if c = 'f' then .ok ⟨frames, .word ['a', 'l', 's', 'e'] (.bool false)⟩
  else
    match startNumeral c with
    | some (numeral, state) => .ok ⟨frames, .numeral numeral state⟩
    | none => .error .malformed

/-- Take a character after a finished value. -/
def afterValue (frames : List Frame) (value : Value) (c : Char) : Except ReadError ReadState :=
  if isSeparator c then .ok ⟨frames, .done value⟩
  else
    match frames with
    | [] => .error .malformed
    | .array elements :: outer =>
      if c = ',' then .ok ⟨.array (value :: elements) :: outer, .value⟩
      else if c = ']' then .ok ⟨outer, .done (Frame.close (.array (value :: elements)))⟩
      else .error .malformed
    | .object fields key :: outer =>
      if c = ',' then .ok ⟨.object fields key :: outer, .nextKey (putField key value fields)⟩
      else if c = '}' then .ok ⟨outer, .done (.object (putField key value fields))⟩
      else .error .malformed

/-- The mode after the closing quote of a string. -/
def finishString (role : StringRole) (gathered : List Char) : Mode :=
  let text := String.ofList gathered.reverse
  match role with
  | .value => .done (.string text)
  | .key fields => .colon fields text

/-- The state of a string after the four bytes of a code unit. -/
def finishUnit (gathered : List Char) (high? : Option Nat) (codeUnit : Nat) :
    Except ReadError (List Char × EscapeState) :=
  match high? with
  | some high =>
    if isLowSurrogate codeUnit then .ok (pairedChar high codeUnit :: gathered, .none)
    else .error .malformed
  | none =>
    if isHighSurrogate codeUnit then .ok (gathered, .pair codeUnit)
    else if isLowSurrogate codeUnit then .error .malformed
    else .ok (Char.ofNat codeUnit :: gathered, .none)

/-- Take a character of a string that is not its closing quote. -/
def stringStep (gathered : List Char) (escape : EscapeState) (c : Char) :
    Except ReadError (List Char × EscapeState) :=
  match escape with
  | .none =>
    if c = '\\' then .ok (gathered, .opened)
    else if c.toNat < 0x20 then .error .malformed
    else .ok (c :: gathered, .none)
  | .opened =>
    if c = 'u' then .ok (gathered, .unit none 0 (some 0))
    else
      match escapedChar? c with
      | some plain => .ok (plain :: gathered, .none)
      | none => .error .malformed
  | .unit high? bytes unit? =>
    let taken := bytes + c.utf8Size
    let extended := unit?.bind fun codeUnit => (hexValue? c).map (16 * codeUnit + ·)
    if taken < 4 then .ok (gathered, .unit high? taken extended)
    else
      match extended with
      | some codeUnit => finishUnit gathered high? codeUnit
      | none => .error .malformed
  | .pair high => if c = '\\' then .ok (gathered, .pairOpened high) else .error .malformed
  | .pairOpened high =>
    if c = 'u' then .ok (gathered, .unit (some high) 0 (some 0)) else .error .malformed

/-- Whether a numeral may end in this state. -/
def NumeralState.complete : NumeralState → Bool
  | .zero | .whole | .fraction | .exponent => true
  | .sign | .point | .exponentMark | .exponentSign => false

/-- A numeral with its digits in written order. -/
def Numeral.inWrittenOrder (numeral : Numeral) : Numeral where
  negative := numeral.negative
  whole := numeral.whole.reverse
  fraction := numeral.fraction.reverse
  exponent := numeral.exponent.map fun exponent =>
    ⟨exponent.negative, exponent.digits.reverse⟩

/-- The value of a numeral that has ended. -/
def finishNumeral (numeral : Numeral) : Except ReadError Value :=
  match numeral.inWrittenOrder.number? with
  | some number => .ok (.number number)
  | none => .error .malformed

/-- A further digit of the exponent. -/
def Numeral.addExponentDigit (numeral : Numeral) (c : Char) : Numeral :=
  { numeral with exponent := numeral.exponent.map fun exponent =>
      ⟨exponent.negative, c :: exponent.digits⟩ }

/-- A numeral continued by a character, or nothing if the numeral ends before it. -/
def numeralStep (numeral : Numeral) (state : NumeralState) (c : Char) :
    Option (Numeral × NumeralState) :=
  let atPoint := (numeral, NumeralState.point)
  let atMark := ({ numeral with exponent := some ⟨false, []⟩ }, NumeralState.exponentMark)
  let isMark := c = 'e' || c = 'E'
  match state with
  | .sign =>
    if c = '0' then some ({ numeral with whole := [c] }, .zero)
    else if c.isDigit then some ({ numeral with whole := [c] }, .whole)
    else none
  | .zero => if c = '.' then some atPoint else if isMark then some atMark else none
  | .whole =>
    if c.isDigit then some ({ numeral with whole := c :: numeral.whole }, .whole)
    else if c = '.' then some atPoint
    else if isMark then some atMark
    else none
  | .point =>
    if c.isDigit then some ({ numeral with fraction := c :: numeral.fraction }, .fraction)
    else none
  | .fraction =>
    if c.isDigit then some ({ numeral with fraction := c :: numeral.fraction }, .fraction)
    else if isMark then some atMark
    else none
  | .exponentMark =>
    if c = '+' then some (numeral, .exponentSign)
    else if c = '-' then some ({ numeral with exponent := some ⟨true, []⟩ }, .exponentSign)
    else if c.isDigit then some (numeral.addExponentDigit c, .exponent)
    else none
  | .exponentSign | .exponent =>
    if c.isDigit then some (numeral.addExponentDigit c, .exponent) else none

/-- Take one character. -/
def step (limit : Nat) (state : ReadState) (c : Char) : Except ReadError ReadState :=
  let frames := state.frames
  match state.mode with
  | .value => if isSeparator c then .ok state else startValue limit frames c
  | .firstElement =>
    if isSeparator c then .ok state
    else if c = ']' then .ok ⟨frames.tail, .done (.array [])⟩
    else startValue limit frames c
  | .firstKey =>
    if isSeparator c then .ok state
    else if c = '}' then .ok ⟨frames.tail, .done (.object [])⟩
    else if c = '"' then .ok ⟨frames, .string (.key []) [] .none⟩
    else .error .malformed
  | .nextKey fields =>
    if isSeparator c then .ok state
    else if c = '"' then .ok ⟨frames, .string (.key fields) [] .none⟩
    else .error .malformed
  | .colon fields key =>
    if isSeparator c then .ok state
    else if c = ':' then .ok ⟨.object fields key :: frames.tail, .value⟩
    else .error .malformed
  | .done value => afterValue frames value c
  | .word [] value => afterValue frames value c
  | .word (expected :: rest) value =>
    if c = expected then
      .ok ⟨frames, if rest.isEmpty then .done value else .word rest value⟩
    else .error .malformed
  | .string role gathered escape =>
    if c = '"' && escape = .none then .ok ⟨frames, finishString role gathered⟩
    else
      (stringStep gathered escape c).map fun (extended, next) =>
        ⟨frames, .string role extended next⟩
  | .numeral numeral numeralState =>
    match numeralStep numeral numeralState c with
    | some (extended, next) => .ok ⟨frames, .numeral extended next⟩
    | none =>
      if numeralState.complete then
        (finishNumeral numeral).bind fun value => afterValue frames value c
      else .error .malformed

/-- Judge the state in which a text ends. -/
def finish (state : ReadState) : Except ReadError Value :=
  match state.mode with
  | .done value => if state.frames.isEmpty then .ok value else .error .incomplete
  | .numeral numeral numeralState =>
    if numeralState.complete then
      (finishNumeral numeral).bind fun value =>
        if state.frames.isEmpty then .ok value else .error .incomplete
    else .error .incomplete
  | _ => .error .incomplete

/-- The number of containers that a text of the exchange format may have open at once. -/
def nestingLimit : Nat := 127

/-- Read a text as one value, with at most `limit` containers open at once. -/
def readWithin (limit : Nat) (text : String) : Except ReadError Value :=
  (text.toList.foldlM (step limit) ⟨[], .value⟩).bind finish

/-- Read a text of the exchange format as one value. -/
def read (text : String) : Except ReadError Value := readWithin nestingLimit text

end TreeDelta.Json
