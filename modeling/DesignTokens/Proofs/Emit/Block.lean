import DesignTokens.Proofs.SortedMap
import DesignTokens.Proofs.Text.Blank
import DesignTokens.Proofs.Text.Pieces

/-!
# Reading a block of custom properties

* `Scan` : what is open at a place of a block: brackets, and quotes, a comment or a URL;
  `step?` goes on by one character;
* `after? s cs` : what is open behind a text that ends no declaration; `SelfContained cs` : nothing is;
* `pieces? s cs` : the pieces of a text up to its closing brace, cut at the semicolons that stand outside of
  all that is open; a self-contained text before a semicolon is a piece (`pieces?_semicolon`);
* `declarations? block` : the names and values of a block; `property? block name` : the value that a block
  gives to a property, where the last declaration counts.
-/

namespace DesignTokens.Emit

/-! ## What is open -/

/-- What the next character stands in. Letters of `url` may have been read before it, or a slash, with which
a comment may begin, or in a comment a star, with which it may end. -/
inductive Mode where
  | plain (letters : Nat)
  | slash
  | comment (star : Bool)
  | quoted (quote : Char)
  | escaped (quote : Char)
  | url (begun : Bool)
  deriving DecidableEq, Repr

/-- What is open: the closing brackets that are to come, the innermost first, and the mode. -/
structure Scan where
  brackets : List Char
  mode : Mode
  deriving DecidableEq, Repr

def isLineEnd (c : Char) : Bool := c == '\n' || c == '\r' || c == '\x0c'

def isQuote (c : Char) : Bool := c == '"' || c == '\x27'

namespace Scan

/-- Nothing is open. -/
def start : Scan := ⟨[], .plain 0⟩

/-- The character stands in no brackets, quotes, comment or URL. -/
def isOutside (s : Scan) : Bool :=
  s.brackets.isEmpty && match s.mode with
    | .plain _ | .slash => true
    | _ => false

/-- The bracket that closes an opening one. -/
def closing? : Char → Option Char
  | '(' => some ')'
  | '[' => some ']'
  | '{' => some '}'
  | _ => none

/-- How many letters of `url`, in whatever case, are read with one more character. -/
def urlLetters (letters : Nat) (c : Char) : Nat :=
  if c.toLower = 'u' then 1
  else if c.toLower = 'r' ∧ letters = 1 then 2
  else if c.toLower = 'l' ∧ letters = 2 then 3
  else 0

/-- Goes on outside of quotes, comments and URLs. An escape could spell anything. A closing bracket needs the
opening one, and an exclamation mark outside of brackets is kept for other things than values. -/
def stepPlain? (brackets : List Char) (letters : Nat) (c : Char) : Option Scan :=
  if c = '\\' then none
  else if isQuote c then some ⟨brackets, .quoted c⟩
  else if c = '/' then some ⟨brackets, .slash⟩
  else if c = '(' ∧ letters = 3 then some ⟨brackets, .url false⟩
  else if c = ')' ∨ c = ']' ∨ c = '}' then
    if brackets.head? = some c then some ⟨brackets.tail, .plain 0⟩ else none
  else if c = '!' ∧ brackets = [] then none
  else some ⟨(closing? c).toList ++ brackets, .plain (urlLetters letters c)⟩

/-- Goes on in a URL. One that does not begin with a quote has only characters that stand for themselves, in
a URL as in any other brackets. -/
def stepUrl? (brackets : List Char) (begun : Bool) (c : Char) : Option Scan :=
  if c = ')' then some ⟨brackets, .plain 0⟩
  else if !begun && (c == ' ' || c == '\t' || isLineEnd c) then some ⟨brackets, .url false⟩
  else if !begun && isQuote c then some ⟨')' :: brackets, .quoted c⟩
  else if c.toNat ≤ 32 ∨ c.toNat = 127 ∨ isQuote c ∨ c ∈ ['(', '[', ']', '{', '}', '\\', '*'] then none
  else some ⟨brackets, .url true⟩

/-- Goes on by a character. Quotes do not go on over the end of a line. -/
def step? (s : Scan) (c : Char) : Option Scan :=
  match s.mode with
  | .plain letters => stepPlain? s.brackets letters c
  | .slash => if c = '*' then some ⟨s.brackets, .comment false⟩ else stepPlain? s.brackets 0 c
  | .comment star =>
    some ⟨s.brackets, if star && c == '/' then .plain 0 else .comment (c == '*')⟩
  | .quoted quote =>
    if isLineEnd c then none
    else if c = quote then some ⟨s.brackets, .plain 0⟩
    else if c = '\\' then some ⟨s.brackets, .escaped quote⟩
    else some s
  | .escaped quote => if isLineEnd c then none else some ⟨s.brackets, .quoted quote⟩
  | .url begun => stepUrl? s.brackets begun c

/-- What is open behind a text in which no declaration ends. -/
def after? (s : Scan) : List Char → Option Scan
  | [] => some s
  | c :: cs =>
    if s.isOutside ∧ (c = ';' ∨ c = '}') then none
    else (s.step? c).bind fun t => after? t cs

end Scan

/-- No declaration ends in the text, and it leaves nothing open. -/
def SelfContained (cs : List Char) : Prop := (Scan.start.after? cs).any Scan.isOutside = true

instance : DecidablePred SelfContained := fun _ => inferInstanceAs (Decidable (_ = true))

example : SelfContained "url(a;b.svg) \"c;d\"".toList ∧ ¬ SelfContained "url(a')".toList := by decide +kernel

/-! ## Declarations -/

/-- The pieces between semicolons up to the closing brace of a block. -/
def pieces? (s : Scan) : List Char → Option (List (List Char))
  | [] => none
  | c :: cs =>
    if s.isOutside ∧ c = '}' then some [[]]
    else if s.isOutside ∧ c = ';' then (pieces? .start cs).map ([] :: ·)
    else (s.step? c).bind fun t => (pieces? t cs).map (·.modifyHead (c :: ·))

/-- The name before the first colon of a piece and the value behind it, without the blanks around them. -/
def declaration? (piece : List Char) : Option (String × String) :=
  (Text.cutAt (· == ':') piece).map fun (name, value) =>
    (String.ofList (Text.trim name), String.ofList (Text.trim value))

/-- The declarations of a block, which begins with its opening brace. -/
def declarations? (block : String) : Option (List (String × String)) := do
  let body ← Text.stripStart? ['{'] block.toList
  some ((← pieces? .start body).filterMap declaration?)

/-- What a block gives to a property: the last declaration of it counts. -/
def property? (block name : String) : Option String :=
  (declarations? block).bind fun ds => (SortedMap.ofList ds).get? name

/-! ## Self-contained texts -/

variable {s t : Scan} {cs rest name value : List Char}

theorem after?_append (s : Scan) (cs rest : List Char) :
    s.after? (cs ++ rest) = (s.after? cs).bind (·.after? rest) := by
  induction cs generalizing s with
  | nil => rfl
  | cons c cs ih =>
    rw [List.cons_append, Scan.after?, Scan.after?]
    split
    · rfl
    · rw [Option.bind_assoc]
      exact Option.bind_congr fun t _ => ih t

/-- A text that ends no declaration is the start of the piece that goes on behind it. -/
theorem pieces?_semicolon (h : s.after? cs = some t) (ht : t.isOutside = true) :
    pieces? s (cs ++ ';' :: rest) = (pieces? .start rest).map (cs :: ·) := by
  induction cs generalizing s with
  | nil =>
    obtain rfl : s = t := Option.some.inj h
    rw [List.nil_append, pieces?, if_neg (by simp), if_pos ⟨ht, rfl⟩]
  | cons c cs ih =>
    rw [Scan.after?] at h
    split at h
    · cases h
    · rename_i hends
      obtain ⟨u, hstep, hrest⟩ := Option.bind_eq_some_iff.1 h
      have hbrace : ¬ (s.isOutside = true ∧ c = '}') := fun hc => hends ⟨hc.1, .inr hc.2⟩
      have hsemicolon : ¬ (s.isOutside = true ∧ c = ';') := fun hc => hends ⟨hc.1, .inl hc.2⟩
      rw [List.cons_append, pieces?, if_neg hbrace, if_neg hsemicolon, hstep, Option.bind_some, ih hrest,
        Option.map_map]
      rfl

theorem SelfContained.pieces?_append (h : SelfContained cs) :
    pieces? .start (cs ++ ';' :: rest) = (pieces? .start rest).map (cs :: ·) := by
  obtain ⟨t, hafter, ht⟩ := (Option.any_eq_true _ _).1 h
  exact pieces?_semicolon hafter ht

/-! ## Names -/

/-- The character may stand in a name: a letter, digit, dash or underscore, or one outside of ASCII that is
no blank. -/
def isNameChar (c : Char) : Bool :=
  !Text.isBlank c && (c.isAlphanum || c == '-' || c == '_' || 128 ≤ c.toNat)

theorem ne_of_isNameChar {c d : Char} (hc : isNameChar c = true) (hd : isNameChar d = false) : c ≠ d := by
  rintro rfl
  rw [hc] at hd
  cases hd

theorem step?_of_isNameChar {c : Char} (hc : isNameChar c = true) (letters : Nat) :
    (Scan.mk [] (.plain letters)).step? c = some ⟨[], .plain (Scan.urlLetters letters c)⟩ := by
  have hne {d : Char} (hd : isNameChar d = false) : c ≠ d := ne_of_isNameChar hc hd
  have hquote : isQuote c = false := by
    rw [isQuote, beq_false_of_ne (hne (by decide)), beq_false_of_ne (hne (by decide)), Bool.or_false]
  have hopening : Scan.closing? c = none := by
    unfold Scan.closing?
    split
    · exact absurd rfl (hne (by decide))
    · exact absurd rfl (hne (by decide))
    · exact absurd rfl (hne (by decide))
    · rfl
  show Scan.stepPlain? [] letters c = _
  unfold Scan.stepPlain?
  rw [if_neg (hne (by decide)), if_neg (by simp [hquote]), if_neg (hne (by decide)),
    if_neg (fun h => hne (by decide) h.1),
    if_neg (not_or.2 ⟨hne (by decide), not_or.2 ⟨hne (by decide), hne (by decide)⟩⟩),
    if_neg (fun h => hne (by decide) h.1), hopening]
  rfl

theorem after?_of_isNameChar (h : ∀ c ∈ name, isNameChar c = true) (letters : Nat) :
    ∃ more, (Scan.mk [] (.plain letters)).after? name = some ⟨[], .plain more⟩ := by
  induction name generalizing letters with
  | nil => exact ⟨letters, rfl⟩
  | cons c name ih =>
    obtain ⟨hc, hname⟩ := List.forall_mem_cons.1 h
    have hends : ¬ ((Scan.mk [] (.plain letters)).isOutside = true ∧ (c = ';' ∨ c = '}')) := by
      rintro ⟨-, rfl | rfl⟩ <;> cases hc
    rw [Scan.after?, if_neg hends, step?_of_isNameChar hc]
    exact ih hname _

theorem isBlank_of_isNameChar {c : Char} (hc : isNameChar c = true) : Text.isBlank c = false := by
  unfold isNameChar at hc
  rw [Bool.and_eq_true, Bool.not_eq_true'] at hc
  exact hc.1

/-! ## One declaration -/

/-- The characters of a declaration behind the end of the line before it, up to its semicolon. -/
def line (name value : List Char) : List Char := ['\n', ' ', ' '] ++ (name ++ ([':', ' '] ++ value))

theorem selfContained_line (hname : ∀ c ∈ name, isNameChar c = true) (hvalue : SelfContained value) :
    SelfContained (line name value) := by
  obtain ⟨letters, hafter⟩ := after?_of_isNameChar hname 0
  have hindent : Scan.start.after? ['\n', ' ', ' '] = some ⟨[], .plain 0⟩ := rfl
  have hcolon : (Scan.mk [] (.plain letters)).after? [':', ' '] = some .start := rfl
  unfold SelfContained line
  rw [after?_append, hindent, Option.bind_some, after?_append, hafter, Option.bind_some, after?_append, hcolon]
  exact hvalue

theorem declaration?_line (hname : ∀ c ∈ name, isNameChar c = true) :
    declaration? (line name value) = some (String.ofList name, String.ofList (Text.trim value)) := by
  have hcut : Text.cutAt (· == ':') (line name value) = some (['\n', ' ', ' '] ++ name, [' '] ++ value) := by
    refine Text.cutAt_eq_some.2 ⟨':', by simp [line], rfl, fun c hc => ?_⟩
    rw [beq_eq_false_iff_ne]
    rcases List.mem_append.1 hc with hc | hc
    · rintro rfl
      exact absurd hc (by decide)
    · exact ne_of_isNameChar (hname c hc) (by decide)
  have htrimName : Text.trim (['\n', ' ', ' '] ++ name) = name := by
    rw [Text.trim_append_of_blank (List.all_eq_true.1 rfl),
      Text.trim_of_forall fun c hc => isBlank_of_isNameChar (hname c hc)]
  have htrimValue : Text.trim ([' '] ++ value) = Text.trim value :=
    Text.trim_append_of_blank (List.all_eq_true.1 rfl)
  rw [declaration?, hcut, Option.map_some]
  simp only [htrimName, htrimValue]

end DesignTokens.Emit
