import Mathlib.Tactic

/-!
# Byte signatures

`scan.rs`: a signature is a sequence of bytes, each fixed or a wildcard.  `Pattern.parse` reads the
IDA syntax, `Pattern.fromCodeStyle` a byte array with a mask string; `scan` and `scanAll` look for a
signature in a slice.

The documented tokens are `?`, `??` and one or two hexadecimal digits.  `parse` takes any run of
question marks for a wildcard, so its result is the documented one exactly when the first token
outside the grammar is not such a run.
-/

namespace NeoHook

inductive PatternError where
  | empty
  | invalidToken (token : String)
  | invalidMaskChar (c : Char)
  | maskLengthMismatch (bytes mask : ℕ)
  deriving DecidableEq, Repr

/-- A signature: the value at a position with `mask` false is unused. -/
structure Pattern where
  bytes : List UInt8
  mask : List Bool
  sameLength : bytes.length = mask.length
  nonempty : bytes ≠ []
  deriving DecidableEq

namespace Pattern

/-! ### The IDA syntax -/

/-- A token of a signature string. -/
abbrev Token := List Char

/-- `char::is_whitespace`: the property `White_Space` of Unicode. -/
def isWhitespace (c : Char) : Bool :=
  (0x9 ≤ c.toNat && c.toNat ≤ 0xD) || c.toNat == 0x20 || c.toNat == 0x85 || c.toNat == 0xA0 ||
    c.toNat == 0x1680 || (0x2000 ≤ c.toNat && c.toNat ≤ 0x200A) || c.toNat == 0x2028 ||
    c.toNat == 0x2029 || c.toNat == 0x202F || c.toNat == 0x205F || c.toNat == 0x3000

/-- `str::split_whitespace`: the pieces between white space that are not empty. -/
def splitWhitespace (signature : String) : List Token :=
  (signature.toList.splitOnP isWhitespace).filter fun token => !token.isEmpty

/-- `str::bytes`. -/
def tokenBytes (token : Token) : List UInt8 := token.flatMap String.utf8EncodeChar

/-- The value of a hexadecimal digit in ASCII. -/
def hexDigit (b : UInt8) : Option ℕ :=
  if 0x30 ≤ b ∧ b ≤ 0x39 then some (b.toNat - 0x30)
  else if 0x41 ≤ b ∧ b ≤ 0x46 then some (b.toNat - 0x37)
  else if 0x61 ≤ b ∧ b ≤ 0x66 then some (b.toNat - 0x57)
  else none

def isAsciiHexdigit (b : UInt8) : Bool := (hexDigit b).isSome

/-- The digits of `u8::from_str_radix(_, 16)`, behind the sign, with the overflow checks. -/
def hexDigits (value : ℕ) : List UInt8 → Option ℕ
  | [] => some value
  | b :: rest =>
    match hexDigit b with
    | none => none
    | some digit =>
      if value * 16 < 256 ∧ value * 16 + digit < 256 then hexDigits (value * 16 + digit) rest
      else none

/-- `u8::from_str_radix(_, 16)`. -/
def fromStrRadix : List UInt8 → Option ℕ
  | [] => none
  | [0x2B] => none
  | [0x2D] => none
  | 0x2B :: digits => hexDigits 0 digits
  | digits => hexDigits 0 digits

/-- One turn of the loop of `parse`: what is pushed to `bytes` and to `mask`. -/
def parseToken (token : Token) : Except PatternError (UInt8 × Bool) :=
  if (tokenBytes token).all (· == 0x3F) then .ok (0, false)
  else if 2 < (tokenBytes token).length ∨ ¬ (tokenBytes token).all isAsciiHexdigit then
    .error (.invalidToken (String.ofList token))
  else
    match fromStrRadix (tokenBytes token) with
    | some value => .ok (UInt8.ofNat value, true)
    | none => .error (.invalidToken (String.ofList token))

/-- The loop of `parse`; the two vectors grow together. -/
def parseTokens : List Token → Except PatternError (List (UInt8 × Bool))
  | [] => .ok []
  | token :: rest =>
    match parseToken token with
    | .error e => .error e
    | .ok cell =>
      match parseTokens rest with
      | .error e => .error e
      | .ok cells => .ok (cell :: cells)

/-- The pattern with the given values and flags. -/
def ofCells (cells : List (UInt8 × Bool)) (some : cells ≠ []) : Pattern where
  bytes := cells.map Prod.fst
  mask := cells.map Prod.snd
  sameLength := by simp
  nonempty := by simpa using some

def parse (signature : String) : Except PatternError Pattern :=
  match parseTokens (splitWhitespace signature) with
  | .error e => .error e
  | .ok cells => if none : cells = [] then .error .empty else .ok (ofCells cells none)

/-! ### The mask syntax -/

/-- The loop of `from_code_style` over the mask. -/
def maskFlags : List Char → Except PatternError (List Bool)
  | [] => .ok []
  | c :: rest =>
    if c = 'x' ∨ c = 'X' then (maskFlags rest).map (true :: ·)
    else if c = '?' then (maskFlags rest).map (false :: ·)
    else .error (.invalidMaskChar c)

theorem maskFlags_length : ∀ {mask : List Char} {flags : List Bool},
    maskFlags mask = .ok flags → flags.length = mask.length
  | [], flags, read => by
    cases read
    rfl
  | c :: rest, flags, read => by
    unfold maskFlags at read
    cases tail : maskFlags rest with
    | error e =>
      rw [tail] at read
      split_ifs at read <;> simp [Except.map] at read
    | ok short =>
      rw [tail] at read
      split_ifs at read <;>
        simp only [Except.map, Except.ok.injEq] at read
      all_goals
        subst read
        simp [maskFlags_length tail]

def fromCodeStyle (pattern : List UInt8) (mask : String) : Except PatternError Pattern :=
  if nonempty : pattern = [] then .error .empty
  else if same : pattern.length ≠ mask.toList.length then
    .error (.maskLengthMismatch pattern.length mask.toList.length)
  else
    match read : maskFlags mask.toList with
    | .error e => .error e
    | .ok flags => .ok ⟨pattern, flags, by rw [maskFlags_length read]; omega, nonempty⟩

/-! ### Matching -/

def len (p : Pattern) : ℕ := p.bytes.length

theorem len_pos (p : Pattern) : 0 < p.len := List.length_pos_iff.mpr p.nonempty

/-- The signature matches the slice at `offset`; the callers keep the indices inside it. -/
def matchesAt (p : Pattern) (haystack : List UInt8) (offset : ℕ) : Bool :=
  (p.bytes.zip p.mask).zipIdx.all fun cell =>
    !cell.1.2 || haystack[offset + cell.2]? == some cell.1.1

end Pattern

/-- The first occurrence of the pattern in the slice. -/
def scan (haystack : List UInt8) (p : Pattern) : Option ℕ :=
  if p.len = 0 ∨ haystack.length < p.len then none
  else (List.range (haystack.length - p.len + 1)).find? (p.matchesAt haystack)

/-- Every occurrence of the pattern in the slice. -/
def scanAll (haystack : List UInt8) (p : Pattern) : List ℕ :=
  if p.len = 0 ∨ haystack.length < p.len then []
  else (List.range (haystack.length - p.len + 1)).filter (p.matchesAt haystack)

namespace Pattern

/-! ### The documented grammar -/

/-- A hexadecimal digit. -/
def IsHexDigit (c : Char) : Prop :=
  ('0' ≤ c ∧ c ≤ '9') ∨ ('A' ≤ c ∧ c ≤ 'F') ∨ ('a' ≤ c ∧ c ≤ 'f')

instance (c : Char) : Decidable (IsHexDigit c) := instDecidableOr

/-- The value of a hexadecimal digit. -/
def hexValue (c : Char) : ℕ :=
  if c ≤ '9' then c.toNat - '0'.toNat
  else if c ≤ 'F' then c.toNat - 'A'.toNat + 10
  else c.toNat - 'a'.toNat + 10

/-- A run of question marks. -/
def IsRun (token : Token) : Prop := ∀ c ∈ token, c = '?'

instance (token : Token) : Decidable (IsRun token) := List.decidableBAll _ token

/-- One or two hexadecimal digits. -/
def IsByte (token : Token) : Prop :=
  (token.length = 1 ∨ token.length = 2) ∧ ∀ c ∈ token, IsHexDigit c

instance (token : Token) : Decidable (IsByte token) :=
  have := List.decidableBAll IsHexDigit token
  instDecidableAnd

/-- The documented tokens. -/
def WellFormed (token : Token) : Prop := token = ['?'] ∨ token = ['?', '?'] ∨ IsByte token

instance (token : Token) : Decidable (WellFormed token) := instDecidableOr

/-- The position a documented token stands for: `none` for a wildcard. -/
def position (token : Token) : Option UInt8 :=
  if IsRun token then none
  else some (UInt8.ofNat (token.foldl (fun value c => value * 16 + hexValue c) 0))

/-- The positions of a pattern. -/
def positions (p : Pattern) : List (Option UInt8) :=
  List.zipWith (fun byte fixed => if fixed then some byte else none) p.bytes p.mask

/-- The first token that is not of a documented form. -/
def firstMalformed (signature : String) : Option Token :=
  (splitWhitespace signature).find? fun token => ¬ WellFormed token

/-- What is documented of the result of `parse`. -/
structure Documented (signature : String) (result : Except PatternError Pattern) : Prop where
  accepts : (∃ p, result = .ok p) ↔
    splitWhitespace signature ≠ [] ∧ ∀ token ∈ splitWhitespace signature, WellFormed token
  positions : ∀ p, result = .ok p → p.positions = (splitWhitespace signature).map position
  malformed : ∀ token, firstMalformed signature = some token →
    result = .error (.invalidToken (String.ofList token))
  blank : splitWhitespace signature = [] → result = .error .empty

/-! ### One token -/

theorem utf8EncodeChar_ascii {c : Char} (ascii : c.toNat < 0x80) :
    String.utf8EncodeChar c = [UInt8.ofNat c.toNat] := by
  have small : c.toNat ≤ 0x7f := by omega
  simp [String.utf8EncodeChar, small]

/-- A test that only ASCII bytes pass is a test of the characters. -/
theorem utf8EncodeChar_all {test : UInt8 → Bool} (ascii : ∀ b, test b → b.toNat < 0x80)
    (c : Char) :
    (String.utf8EncodeChar c).all test ↔ c.toNat < 0x80 ∧ test (UInt8.ofNat c.toNat) := by
  by_cases small : c.toNat < 0x80
  · simp [utf8EncodeChar_ascii small, small]
  · have large : ¬ c.toNat ≤ 0x7f := by omega
    simp only [small, false_and, iff_false]
    intro all
    have lead : ∃ b rest, String.utf8EncodeChar c = b :: rest ∧ 0x80 ≤ b.toNat := by
      simp only [String.utf8EncodeChar, Char.toNat_val, large, if_false]
      split_ifs <;> refine ⟨_, _, rfl, ?_⟩ <;> simp only [UInt8.toNat_ofNat'] <;> omega
    obtain ⟨b, rest, code, high⟩ := lead
    rw [code, List.all_cons, Bool.and_eq_true] at all
    have := ascii b all.1
    omega

theorem tokenBytes_all {test : UInt8 → Bool} (ascii : ∀ b, test b → b.toNat < 0x80)
    (token : Token) :
    (tokenBytes token).all test ↔ ∀ c ∈ token, c.toNat < 0x80 ∧ test (UInt8.ofNat c.toNat) := by
  unfold tokenBytes
  induction token with
  | nil => simp
  | cons c rest ih =>
    rw [List.flatMap_cons, List.all_append, Bool.and_eq_true, ih, utf8EncodeChar_all ascii,
      List.forall_mem_cons]

/-- The bytes of an ASCII token are its characters. -/
theorem tokenBytes_ascii {token : Token} (ascii : ∀ c ∈ token, c.toNat < 0x80) :
    tokenBytes token = token.map fun c => UInt8.ofNat c.toNat := by
  unfold tokenBytes
  induction token with
  | nil => rfl
  | cons c rest ih =>
    rw [List.flatMap_cons, ih fun d there => ascii d (List.mem_cons_of_mem c there),
      utf8EncodeChar_ascii (ascii c List.mem_cons_self)]
    rfl

theorem tokenBytes_question (token : Token) :
    (tokenBytes token).all (· == 0x3F) ↔ IsRun token := by
  have ascii : ∀ b : UInt8, (b == 0x3F) = true → b.toNat < 0x80 := by
    intro b same
    rw [beq_iff_eq.mp same]
    decide
  rw [tokenBytes_all ascii]
  refine forall₂_congr fun c _ => ?_
  constructor
  · rintro ⟨small, same⟩
    have code : c.toNat = '?'.toNat := by
      have := congrArg UInt8.toNat (beq_iff_eq.mp same)
      rw [UInt8.toNat_ofNat', Nat.mod_eq_of_lt (by omega)] at this
      exact this
    exact Char.toNat_inj.mp code
  · rintro rfl
    decide

/-- The reader of ASCII digits, on characters. -/
theorem hexDigit_char {c : Char} (ascii : c.toNat < 0x80) :
    hexDigit (UInt8.ofNat c.toNat) = if IsHexDigit c then some (hexValue c) else none := by
  have code : (UInt8.ofNat c.toNat).toNat = c.toNat := by
    rw [UInt8.toNat_ofNat', Nat.mod_eq_of_lt (by omega)]
  have order : ∀ d : Char, d ≤ c ↔ d.toNat ≤ c.toNat := fun _ => Iff.rfl
  have order' : ∀ d : Char, c ≤ d ↔ c.toNat ≤ d.toNat := fun _ => Iff.rfl
  simp only [hexDigit, IsHexDigit, hexValue, UInt8.le_iff_toNat_le, code, order, order']
  simp only [UInt8.reduceToNat, Char.reduceToNat]
  split_ifs <;> first | rfl | omega | (congr 1; omega)

theorem hexDigit_lt {b : UInt8} {digit : ℕ} (read : hexDigit b = some digit) :
    digit < 16 ∧ b.toNat < 0x80 := by
  unfold hexDigit at read
  simp only [UInt8.le_iff_toNat_le, UInt8.reduceToNat] at read
  split_ifs at read <;> cases read <;> omega

theorem IsHexDigit.ascii {c : Char} (hex : IsHexDigit c) : c.toNat < 0x80 := by
  have order : ∀ d : Char, c ≤ d ↔ c.toNat ≤ d.toNat := fun _ => Iff.rfl
  simp only [IsHexDigit, order, Char.reduceToNat] at hex
  omega

theorem tokenBytes_hex (token : Token) :
    (tokenBytes token).all isAsciiHexdigit ↔ ∀ c ∈ token, IsHexDigit c := by
  have ascii : ∀ b : UInt8, isAsciiHexdigit b = true → b.toNat < 0x80 := by
    intro b hex
    obtain ⟨digit, read⟩ := Option.isSome_iff_exists.mp hex
    exact (hexDigit_lt read).2
  rw [tokenBytes_all ascii]
  refine forall₂_congr fun c _ => ?_
  constructor
  · rintro ⟨small, hex⟩
    unfold isAsciiHexdigit at hex
    rw [hexDigit_char small] at hex
    by_contra other
    simp [other] at hex
  · intro hex
    refine ⟨hex.ascii, ?_⟩
    simp [isAsciiHexdigit, hexDigit_char hex.ascii, hex]

theorem hexValue_lt {c : Char} (hex : IsHexDigit c) : hexValue c < 16 := by
  have read := hexDigit_char hex.ascii
  rw [if_pos hex] at read
  exact (hexDigit_lt read).1

/-- The characters of a byte token, read by `from_str_radix`. -/
theorem fromStrRadix_byte {token : Token} (byte : IsByte token) :
    fromStrRadix (tokenBytes token) =
      some (token.foldl (fun value c => value * 16 + hexValue c) 0) := by
  obtain ⟨length, hex⟩ := byte
  have digit : ∀ c ∈ token, hexDigit (UInt8.ofNat c.toNat) = some (hexValue c) := by
    intro c there
    rw [hexDigit_char (hex c there).ascii, if_pos (hex c there)]
  have sign : ∀ c ∈ token, UInt8.ofNat c.toNat ≠ 0x2B ∧ UInt8.ofNat c.toNat ≠ 0x2D := by
    intro c there
    have read := digit c there
    constructor <;>
    · intro same
      rw [same] at read
      exact absurd read (by simp [hexDigit])
  rw [tokenBytes_ascii fun c there => (hex c there).ascii]
  match token, length with
  | [c], _ =>
    have small := hexValue_lt (hex c (by simp))
    have plain := sign c (by simp)
    simp only [List.map_cons, List.map_nil, List.foldl_cons, List.foldl_nil]
    rw [fromStrRadix.eq_5 _ (by simp) (by simpa using plain.1) (by simpa using plain.2)
      (by intro digits; simp [plain.1])]
    have total : 0 * 16 < 256 ∧ 0 * 16 + hexValue c < 256 := by omega
    simp only [hexDigits, digit c (by simp), if_pos total]
  | [c, d], _ =>
    have small := hexValue_lt (hex c (by simp))
    have small' := hexValue_lt (hex d (by simp))
    have plain := sign c (by simp)
    simp only [List.map_cons, List.map_nil, List.foldl_cons, List.foldl_nil]
    rw [fromStrRadix.eq_5 _ (by simp) (by simp) (by simp) (by intro digits; simp [plain.1])]
    have first : 0 * 16 < 256 ∧ 0 * 16 + hexValue c < 256 := by omega
    have second : (0 * 16 + hexValue c) * 16 < 256 ∧
        (0 * 16 + hexValue c) * 16 + hexValue d < 256 := by omega
    simp only [hexDigits, digit c (by simp), digit d (by simp), if_pos first, if_pos second]

theorem parseToken_run {token : Token} (run : IsRun token) : parseToken token = .ok (0, false) := by
  unfold parseToken
  rw [if_pos ((tokenBytes_question token).mpr run)]

theorem IsByte.not_run {token : Token} (byte : IsByte token) : ¬ IsRun token := by
  intro run
  match token, byte with
  | [c], byte | [c, _], byte =>
    have hex := byte.2 c (by simp)
    rw [run c (by simp)] at hex
    exact absurd hex (by decide)

theorem parseToken_byte {token : Token} (byte : IsByte token) :
    parseToken token =
      .ok (UInt8.ofNat (token.foldl (fun value c => value * 16 + hexValue c) 0), true) := by
  have plain : ¬ (tokenBytes token).all (· == 0x3F) := by
    rw [tokenBytes_question]
    exact byte.not_run
  have short : ¬ (2 < (tokenBytes token).length ∨ ¬ (tokenBytes token).all isAsciiHexdigit) := by
    rw [tokenBytes_hex, tokenBytes_ascii fun c there => (byte.2 c there).ascii, List.length_map]
    have length := byte.1
    rintro (long | other)
    · omega
    · exact other byte.2
  unfold parseToken
  rw [if_neg plain, if_neg short, fromStrRadix_byte byte]

theorem parseToken_other {token : Token} (nonempty : token ≠ []) (run : ¬ IsRun token)
    (byte : ¬ IsByte token) :
    parseToken token = .error (.invalidToken (String.ofList token)) := by
  have plain : ¬ (tokenBytes token).all (· == 0x3F) := by
    rw [tokenBytes_question]
    exact run
  have long : 2 < (tokenBytes token).length ∨ ¬ (tokenBytes token).all isAsciiHexdigit := by
    rw [tokenBytes_hex]
    by_contra! both
    rw [tokenBytes_ascii fun c there => (both.2 c there).ascii, List.length_map] at both
    have := List.length_pos_iff.mpr nonempty
    exact byte ⟨by omega, both.2⟩
  unfold parseToken
  rw [if_neg plain, if_pos long]

/-! ### The whole signature -/

/-- The tokens the loop accepts. -/
def Accepted (token : Token) : Prop := IsRun token ∨ IsByte token

instance (token : Token) : Decidable (Accepted token) := instDecidableOr

/-- What the loop pushes for an accepted token. -/
def cell (token : Token) : UInt8 × Bool :=
  if IsRun token then (0, false)
  else (UInt8.ofNat (token.foldl (fun value c => value * 16 + hexValue c) 0), true)

theorem WellFormed.accepted {token : Token} (well : WellFormed token) : Accepted token := by
  rcases well with rfl | rfl | byte
  · exact .inl (by decide)
  · exact .inl (by decide)
  · exact .inr byte

/-- An accepted token outside the grammar is a long run of question marks. -/
theorem Accepted.long {token : Token} (accepted : Accepted token) (nonempty : token ≠ [])
    (malformed : ¬ WellFormed token) : 3 ≤ token.length ∧ IsRun token := by
  rcases accepted with run | byte
  · refine ⟨?_, run⟩
    match token, nonempty with
    | [c], _ =>
      rw [run c (by simp)] at malformed
      exact absurd (.inl rfl) malformed
    | [c, d], _ =>
      rw [run c (by simp), run d (by simp)] at malformed
      exact absurd (.inr (.inl rfl)) malformed
    | _ :: _ :: _ :: _, _ => simp
  · exact absurd (.inr (.inr byte)) malformed

theorem parseToken_eq {token : Token} (nonempty : token ≠ []) :
    parseToken token =
      if Accepted token then .ok (cell token)
      else .error (.invalidToken (String.ofList token)) := by
  unfold cell
  by_cases run : IsRun token
  · have accepted : Accepted token := .inl run
    rw [if_pos accepted, if_pos run, parseToken_run run]
  · by_cases byte : IsByte token
    · have accepted : Accepted token := .inr byte
      rw [if_pos accepted, if_neg run, parseToken_byte byte]
    · have rejected : ¬ Accepted token := fun accepted => accepted.elim run byte
      rw [if_neg rejected, parseToken_other nonempty run byte]

/-- The loop stops at the first token it does not accept. -/
theorem parseTokens_eq {tokens : List Token} (nonempty : ∀ token ∈ tokens, token ≠ []) :
    parseTokens tokens =
      match tokens.find? fun token => ¬ Accepted token with
      | some token => .error (.invalidToken (String.ofList token))
      | none => .ok (tokens.map cell) := by
  induction tokens with
  | nil => rfl
  | cons token rest ih =>
    rw [parseTokens, parseToken_eq (nonempty token List.mem_cons_self),
      ih fun other there => nonempty other (List.mem_cons_of_mem token there)]
    by_cases accepted : Accepted token
    · rw [if_pos accepted, List.find?_cons_of_neg (by simpa using accepted)]
      cases rest.find? fun token => ¬ Accepted token with
      | none => rfl
      | some other => rfl
    · rw [if_neg accepted, List.find?_cons_of_pos (by simpa using accepted)]

theorem splitWhitespace_nonempty (signature : String) :
    ∀ token ∈ splitWhitespace signature, token ≠ [] := by
  intro token there
  unfold splitWhitespace at there
  simpa using (List.mem_filter.mp there).2

theorem ofCells_positions {tokens : List Token} (some : tokens.map cell ≠ []) :
    (ofCells (tokens.map cell) some).positions = tokens.map position := by
  show List.zipWith _ ((tokens.map cell).map Prod.fst) ((tokens.map cell).map Prod.snd) = _
  rw [List.map_map, List.map_map, List.zipWith_map, List.zipWith_self]
  refine List.map_congr_left fun token _ => ?_
  simp only [Function.comp, cell, position]
  split_ifs <;> simp_all

/-- The result of `parse`, by the first token it does not accept. -/
theorem parse_rejected {signature : String} {token : Token}
    (found : ((splitWhitespace signature).find? fun token => ¬ Accepted token) = some token) :
    parse signature = .error (.invalidToken (String.ofList token)) := by
  unfold parse
  rw [parseTokens_eq (splitWhitespace_nonempty signature), found]

theorem parse_accepted {signature : String}
    (found : ((splitWhitespace signature).find? fun token => ¬ Accepted token) = none)
    (some : (splitWhitespace signature).map cell ≠ []) :
    parse signature = .ok (ofCells ((splitWhitespace signature).map cell) some) := by
  unfold parse
  rw [parseTokens_eq (splitWhitespace_nonempty signature), found]
  simp only [dif_neg some]

theorem parse_blank {signature : String} (blank : splitWhitespace signature = []) :
    parse signature = .error .empty := by
  unfold parse
  rw [blank]
  rfl

/-- Unless the first malformed token is a long run of question marks, the loop and the grammar stop
at the same token. -/
theorem find_accepted {signature : String}
    (short : ∀ token, firstMalformed signature = some token →
      ¬ (3 ≤ token.length ∧ IsRun token)) :
    ((splitWhitespace signature).find? fun token => ¬ Accepted token) =
      firstMalformed signature := by
  cases found : firstMalformed signature with
  | none =>
    have well := List.find?_eq_none.mp found
    refine List.find?_eq_none.mpr fun token there => ?_
    have := (show WellFormed token by simpa using well token there).accepted
    simpa using this
  | some token =>
    obtain ⟨malformed, before, after, split, earlier⟩ := List.find?_eq_some_iff_append.mp found
    have nonempty : token ≠ [] :=
      splitWhitespace_nonempty signature token (by rw [split]; simp)
    refine List.find?_eq_some_iff_append.mpr ⟨?_, before, after, split, fun other there => ?_⟩
    · have rejected : ¬ Accepted token := fun accepted =>
        short token found (accepted.long nonempty (by simpa using malformed))
      simpa using rejected
    · have := (show WellFormed other by simpa using earlier other there).accepted
      simpa using this

/-- `parse` does what is documented exactly when the first token outside the grammar, if there is
one, is not a run of three or more question marks. -/
theorem parse_documented_iff (signature : String) :
    Documented signature (parse signature) ↔
      ∀ token, firstMalformed signature = some token → ¬ (3 ≤ token.length ∧ IsRun token) := by
  constructor
  · rintro documented token found ⟨_, run⟩
    have result := documented.malformed token found
    cases stop : (splitWhitespace signature).find? fun token => ¬ Accepted token with
    | none =>
      have there : token ∈ splitWhitespace signature := List.mem_of_find?_eq_some found
      have nonempty : (splitWhitespace signature).map cell ≠ [] := by
        simp [List.ne_nil_of_mem there]
      rw [parse_accepted stop nonempty] at result
      cases result
    | some other =>
      rw [parse_rejected stop] at result
      have same : other = token := by
        have spelled : String.ofList other = String.ofList token := by simpa using result
        simpa using congrArg String.toList spelled
      have rejected := List.find?_some stop
      rw [same] at rejected
      simp [Accepted, run] at rejected
  · intro short
    have stop := find_accepted short
    cases found : firstMalformed signature with
    | some token =>
      rw [found] at stop
      have result := parse_rejected stop
      have there : token ∈ splitWhitespace signature := List.mem_of_find?_eq_some found
      have malformed : ¬ WellFormed token := by simpa using List.find?_some found
      constructor
      · rw [result]
        constructor
        · rintro ⟨p, same⟩
          cases same
        · rintro ⟨_, well⟩
          exact absurd (well token there) malformed
      · intro p same
        rw [result] at same
        cases same
      · intro other again
        rw [found] at again
        cases again
        exact result
      · intro blank
        rw [blank] at there
        cases there
    | none =>
      rw [found] at stop
      have well : ∀ token ∈ splitWhitespace signature, WellFormed token := by
        intro token there
        simpa using List.find?_eq_none.mp found token there
      by_cases blank : splitWhitespace signature = []
      · have result := parse_blank blank
        constructor
        · rw [result]
          constructor
          · rintro ⟨p, same⟩
            cases same
          · rintro ⟨some, _⟩
            exact absurd blank some
        · intro p same
          rw [result] at same
          cases same
        · intro token again
          rw [found] at again
          cases again
        · intro _
          exact result
      · have nonempty : (splitWhitespace signature).map cell ≠ [] := by simpa using blank
        have result := parse_accepted stop nonempty
        constructor
        · rw [result]
          exact ⟨fun _ => ⟨blank, well⟩, fun _ => ⟨_, rfl⟩⟩
        · intro p same
          rw [result] at same
          cases same
          exact ofCells_positions nonempty
        · intro token again
          rw [found] at again
          cases again
        · intro none
          exact absurd none blank

/-- Three question marks are taken for one wildcard. -/
theorem parse_three_questions :
    ¬ Documented "???" (parse "???") := by
  intro documented
  have result := documented.malformed ['?', '?', '?'] (by decide)
  exact absurd result (by decide)

/-! ### What a pattern matches -/

/-- The slice has every fixed byte of the pattern at its place behind `offset`. -/
def Fits (p : Pattern) (haystack : List UInt8) (offset : ℕ) : Prop :=
  ∀ j b, p.positions[j]? = some (some b) → haystack[offset + j]? = some b

theorem positions_length (p : Pattern) : p.positions.length = p.len := by
  unfold positions len
  rw [List.length_zipWith, ← p.sameLength, min_self]

theorem positions_eq_some (p : Pattern) (j : ℕ) (b : UInt8) :
    p.positions[j]? = some (some b) ↔ p.bytes[j]? = some b ∧ p.mask[j]? = some true := by
  unfold positions
  rw [List.getElem?_zipWith]
  cases p.bytes[j]? with
  | none => simp
  | some byte =>
    cases p.mask[j]? with
    | none => simp
    | some fixed => cases fixed <;> simp

theorem matchesAt_iff (p : Pattern) (haystack : List UInt8) (offset : ℕ) :
    p.matchesAt haystack offset ↔ p.Fits haystack offset := by
  unfold matchesAt Fits
  simp only [List.all_eq_true, positions_eq_some]
  constructor
  · rintro all j b ⟨byte, fixed⟩
    have there : (((b, true), j) : (UInt8 × Bool) × ℕ) ∈ (p.bytes.zip p.mask).zipIdx := by
      rw [List.mk_mem_zipIdx_iff_getElem?, List.getElem?_zip_eq_some]
      exact ⟨byte, fixed⟩
    simpa using all _ there
  · rintro fits ⟨⟨b, fixed⟩, j⟩ there
    rw [List.mk_mem_zipIdx_iff_getElem?, List.getElem?_zip_eq_some] at there
    cases fixed with
    | false => rfl
    | true => simpa using fits j b there

/-- Patterns with the same positions match at the same places. -/
theorem matchesAt_congr {p q : Pattern} (same : p.positions = q.positions) :
    p.matchesAt = q.matchesAt := by
  funext haystack offset
  rw [Bool.eq_iff_iff, matchesAt_iff, matchesAt_iff]
  unfold Fits
  rw [same]

theorem len_congr {p q : Pattern} (same : p.positions = q.positions) : p.len = q.len := by
  rw [← positions_length p, same, positions_length]

theorem scan_congr {p q : Pattern} (same : p.positions = q.positions) (haystack : List UInt8) :
    scan haystack p = scan haystack q := by
  unfold scan
  rw [len_congr same, matchesAt_congr same]

theorem scanAll_congr {p q : Pattern} (same : p.positions = q.positions) (haystack : List UInt8) :
    scanAll haystack p = scanAll haystack q := by
  unfold scanAll
  rw [len_congr same, matchesAt_congr same]

theorem scan_eq_head (haystack : List UInt8) (p : Pattern) :
    scan haystack p = (scanAll haystack p).head? := by
  unfold scan scanAll
  split_ifs
  · rfl
  · rw [List.head?_filter]

theorem mem_scanAll {haystack : List UInt8} {p : Pattern} {offset : ℕ} :
    offset ∈ scanAll haystack p ↔
      offset + p.len ≤ haystack.length ∧ p.Fits haystack offset := by
  have positive := p.len_pos
  unfold scanAll
  split_ifs with short
  · have : ¬ offset + p.len ≤ haystack.length := by omega
    simp [this]
  · rw [List.mem_filter, List.mem_range, matchesAt_iff]
    have : offset < haystack.length - p.len + 1 ↔ offset + p.len ≤ haystack.length := by omega
    rw [this]

theorem scanAll_ascending (haystack : List UInt8) (p : Pattern) :
    (scanAll haystack p).Pairwise (· < ·) := by
  unfold scanAll
  split_ifs
  · exact List.Pairwise.nil
  · exact List.Pairwise.filter _ List.pairwise_lt_range

/-! ### One pattern in two dialects -/

/-- The token writes the position that the mask style gives as a byte and a mask character. -/
def Spells (written : UInt8 × Char) (token : Token) : Prop :=
  if written.2 = '?' then token = ['?'] ∨ token = ['?', '?']
  else IsByte token ∧ position token = some written.1

/-- The signature writes the positions of the byte array and mask, one token for each. -/
def Equivalent (pattern : List UInt8) (mask : String) (signature : String) : Prop :=
  List.Forall₂ Spells (pattern.zip mask.toList) (splitWhitespace signature)

theorem maskFlags_eq {mask : List Char} {flags : List Bool} (read : maskFlags mask = .ok flags) :
    flags = mask.map fun c => c != '?' := by
  induction mask generalizing flags with
  | nil =>
    cases read
    rfl
  | cons c rest ih =>
    unfold maskFlags at read
    cases tail : maskFlags rest with
    | error e =>
      rw [tail] at read
      split_ifs at read <;> simp [Except.map] at read
    | ok short =>
      rw [tail] at read
      have rest := ih tail
      split_ifs at read with fixed wild
      · simp only [Except.map, Except.ok.injEq] at read
        subst read
        rcases fixed with rfl | rfl <;> simp [rest]
      · simp only [Except.map, Except.ok.injEq] at read
        subst read
        simp [rest, wild]

/-- The positions of a pattern in the mask style. -/
theorem fromCodeStyle_positions {pattern : List UInt8} {mask : String} {p : Pattern}
    (built : fromCodeStyle pattern mask = .ok p) :
    p.positions = (pattern.zip mask.toList).map fun written =>
      if written.2 = '?' then none else some written.1 := by
  unfold fromCodeStyle at built
  split_ifs at built
  split at built
  · cases built
  · rename_i flags read
    cases built
    show List.zipWith _ pattern flags = _
    rw [maskFlags_eq read, List.zipWith_map_right, List.zip, List.map_zipWith]
    congr 1
    funext byte c
    by_cases wild : c = '?' <;> simp [wild]

theorem Spells.wellFormed {written : UInt8 × Char} {token : Token}
    (spells : Spells written token) : WellFormed token := by
  unfold Spells at spells
  split_ifs at spells
  · exact spells.elim .inl (.inr ∘ .inl)
  · exact .inr (.inr spells.1)

theorem Spells.position_eq {written : UInt8 × Char} {token : Token}
    (spells : Spells written token) :
    position token = if written.2 = '?' then none else some written.1 := by
  unfold Spells at spells
  split_ifs at spells ⊢
  · rcases spells with rfl | rfl <;> decide
  · exact spells.2

/-- The equivalent signature is accepted and gives a pattern with the same positions. -/
theorem parse_equivalent {pattern : List UInt8} {mask signature : String} {p : Pattern}
    (built : fromCodeStyle pattern mask = .ok p) (equivalent : Equivalent pattern mask signature) :
    ∃ q, parse signature = .ok q ∧ q.positions = p.positions := by
  have well : ∀ token ∈ splitWhitespace signature, WellFormed token := by
    intro token there
    obtain ⟨i, inside, rfl⟩ := List.mem_iff_getElem.mp there
    exact (equivalent.get (equivalent.length_eq ▸ inside) inside).wellFormed
  have stop : ((splitWhitespace signature).find? fun token => ¬ Accepted token) = none := by
    refine List.find?_eq_none.mpr fun token there => ?_
    simpa using (well token there).accepted
  have same : (splitWhitespace signature).map position = p.positions := by
    rw [fromCodeStyle_positions built]
    have zipped := equivalent
    unfold Equivalent at zipped
    generalize pattern.zip mask.toList = cells at zipped ⊢
    generalize splitWhitespace signature = tokens at zipped ⊢
    induction zipped with
    | nil => rfl
    | cons spells _ ih => rw [List.map_cons, List.map_cons, ih, spells.position_eq]
  have nonempty : (splitWhitespace signature).map cell ≠ [] := by
    intro none
    have length := congrArg List.length same
    rw [List.map_eq_nil_iff.mp none, positions_length] at length
    have := p.len_pos
    simp only [List.map_nil, List.length_nil] at length
    omega
  refine ⟨_, parse_accepted stop nonempty, ?_⟩
  rw [ofCells_positions, same]

end Pattern

end NeoHook
