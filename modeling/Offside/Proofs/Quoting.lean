import Offside.Proofs.Constants
import Offside.Session

/-!
# Proofs/Quoting — texts between quotes, in a source and in its code

A text is written twice on its way: between single quotes in the source, where four characters have
an escape, and between double quotes in the generated module, in the form that JSON has for it.
Readers for the second form are defined here on their own (`Text.Quoted.decode?`), with all that
JSON allows.  Any text at all can be written in a source, and it arrives in the code as it was
(`compile_textLiteral`).
-/

namespace Offside

open List

variable (value : List Char)

namespace Text.Quoted

/-! ## Reading the strings of JSON -/

/-- The number that a hexadecimal digit stands for. -/
def hexValue? (c : Char) : Option Nat :=
  if '0' ≤ c ∧ c ≤ '9' then some (c.toNat - 48)
  else if 'a' ≤ c ∧ c ≤ 'f' then some (c.toNat - 87)
  else if 'A' ≤ c ∧ c ≤ 'F' then some (c.toNat - 55)
  else none

/-- The character that a short escape stands for, by the character behind the backslash. -/
def unescape? : Char → Option Char
  | '"' => some '"'
  | '\\' => some '\\'
  | '/' => some '/'
  | 'b' => some '\x08'
  | 'f' => some '\x0c'
  | 'n' => some '\n'
  | 'r' => some '\r'
  | 't' => some '\t'
  | _ => none

/-- Where the reader of a string is. -/
inductive Mode where
  | plain
  /-- Behind a backslash. -/
  | escaped
  /-- Before a digit of an escape that has `left` more behind it; those before it make `value`. -/
  | digits (left value : Nat)

/-- Reads a string behind its opening quote: the codes of its characters, and the text behind the
closing quote. `none` if there is no closing quote, or before it an escape that is none or a
character below the space. -/
def codes? : Mode → List Char → Option (List Nat × List Char)
  | _, [] => none
  | .plain, c :: text =>
    if c = '"' then some ([], text)
    else if c = '\\' then codes? .escaped text
    else if c.toNat < 32 then none
    else (codes? .plain text).map (Prod.map (c.toNat :: ·) id)
  | .escaped, c :: text =>
    if c = 'u' then codes? (.digits 3 0) text
    else (unescape? c).bind fun d => (codes? .plain text).map (Prod.map (d.toNat :: ·) id)
  | .digits 0 value, c :: text =>
    (hexValue? c).bind fun digit =>
      (codes? .plain text).map (Prod.map ((16 * value + digit) :: ·) id)
  | .digits (left + 1) value, c :: text =>
    (hexValue? c).bind fun digit => codes? (.digits left (16 * value + digit)) text

/-- Whether a code is the first half of a surrogate pair. -/
def isHighHalf (code : Nat) : Bool := 0xd800 ≤ code && code < 0xdc00

/-- Whether a code is the second half of a surrogate pair. -/
def isLowHalf (code : Nat) : Bool := 0xdc00 ≤ code && code < 0xe000

/-- The characters with these codes.  Two halves make one character; a half on its own is none. -/
def characters? : List Nat → Option (List Char)
  | [] => some []
  | [code] => if code.isValidChar then some [Char.ofNat code] else none
  | code :: next :: later =>
    if isHighHalf code && isLowHalf next then
      (characters? later).map
        (Char.ofNat (0x10000 + (code - 0xd800) * 0x400 + (next - 0xdc00)) :: ·)
    else if code.isValidChar then (characters? (next :: later)).map (Char.ofNat code :: ·)
    else none

/-- The text that a string of JSON stands for. -/
def decode? : List Char → Option (List Char)
  | '"' :: text =>
    match codes? .plain text with
    | some (codes, []) => characters? codes
    | _ => none
  | _ => none

theorem hexValue?_hexDigit : ∀ n < 16, hexValue? (hexDigit n) = some n := by decide

/-- A character between quotes is read back, whatever follows it. -/
theorem codes?_escape (c : Char) (rest : List Char) :
    codes? .plain (escape c ++ rest) = (codes? .plain rest).map (Prod.map (c.toNat :: ·) id) := by
  unfold escape
  -- The short escapes come first; each is for one character.
  iterate 7
    split
    · next h => rw [eq_of_beq h]; rfl
  split
  · next hlow =>
    have hzero : hexValue? '0' = some 0 := by decide
    have hfirst := hexValue?_hexDigit (c.toNat / 16) (by omega)
    have hsecond := hexValue?_hexDigit (c.toNat % 16) (by omega)
    have hcode : 16 * (c.toNat / 16) + c.toNat % 16 = c.toNat := Nat.div_add_mod _ _
    simp [codes?, hzero, hfirst, hsecond, hcode]
  · next hquote hbackslash _ _ _ _ _ hlow =>
    have hquote : c ≠ '"' := by simpa using hquote
    have hbackslash : c ≠ '\\' := by simpa using hbackslash
    simp [codes?, hquote, hbackslash, hlow]

theorem codes?_encode (value rest : List Char) :
    codes? .plain (value.flatMap escape ++ '"' :: rest) = some (value.map Char.toNat, rest) := by
  induction value with
  | nil => rfl
  | cons c value ih =>
    rw [flatMap_cons, append_assoc, codes?_escape, ih]
    rfl

/-- No character has the code of a half. -/
theorem isHighHalf_toNat (c : Char) : isHighHalf c.toNat = false := by
  have hvalid : c.toNat.isValidChar := c.valid
  simp only [Nat.isValidChar] at hvalid
  simp only [isHighHalf, Bool.and_eq_false_iff, decide_eq_false_iff_not]
  omega

theorem characters?_map_toNat : ∀ value : List Char, characters? (value.map Char.toNat) = some value
  | [] => rfl
  | [c] => by
    have hvalid : c.toNat.isValidChar := c.valid
    simp [characters?, hvalid]
  | c :: d :: value => by
    have hvalid : c.toNat.isValidChar := c.valid
    have ih := characters?_map_toNat (d :: value)
    rw [map_cons] at ih
    simp [characters?, isHighHalf_toNat, hvalid, ih]

/-- **What stands between double quotes is read back as the text itself.** -/
theorem decode?_encode : decode? (encode value) = some value := by
  simp only [encode, cons_append, decode?, codes?_encode, characters?_map_toNat]

/-- Other escapes are read as well. -/
example : decode? "\"a\\\"\\u0041\\ud83d\\ude00\"".toList = some ['a', '"', 'A', '😀'] := by decide

theorem le_toNat_of_mem_escape {c d} (h : d ∈ escape c) : 32 ≤ d.toNat := by
  have hdigit : ∀ n < 16, 32 ≤ (hexDigit n).toNat := by decide
  suffices hall : (escape c).all (32 ≤ ·.toNat) = true by simpa using all_eq_true.mp hall d h
  unfold escape
  iterate 7
    split
    · rfl
  split
  · next hlow => simp [hdigit (c.toNat / 16) (by omega), hdigit (c.toNat % 16) (by omega)]
  · next hlow => simpa using hlow

/-- Between double quotes no character below the space stands for itself. -/
theorem le_toNat_of_mem_encode {value d} (h : d ∈ encode value) : 32 ≤ d.toNat := by
  simp only [encode, cons_append, mem_cons, mem_append, mem_flatMap, not_mem_nil, or_false] at h
  rcases h with rfl | ⟨c, -, hd⟩ | rfl
  · decide
  · exact le_toNat_of_mem_escape hd
  · decide

end Text.Quoted

namespace Token

/-! ## Texts in a source -/

/-- A character as it is written in a text of a source: four have an escape. -/
def escapedInText : Char → List Char
  | '\\' => ['\\', '\\']
  | '\'' => ['\\', '\'']
  | '\n' => ['\\', 'n']
  | '\t' => ['\\', 't']
  | c => [c]

/-- A text as it is written in a source. -/
def textLiteral (value : List Char) : List Char := '\'' :: value.flatMap escapedInText ++ ['\'']

namespace Cut.Quoted

theorem read_escapedInText (c : Char) (text : List Char) (offset : Nat) : ∃ offset',
    read offset (escapedInText c ++ text)
      = (read offset' text).behind (escapedInText c) [c] [] := by
  unfold escapedInText
  split
  · exact ⟨offset + 2, rfl⟩
  · exact ⟨offset + 2, rfl⟩
  · exact ⟨offset + 2, rfl⟩
  · exact ⟨offset + 2, rfl⟩
  · next hbackslash hquote hbreak _ =>
    refine ⟨offset + 1, ?_⟩
    rw [singleton_append, read] <;> grind

theorem read_textLiteral : ∀ (value : List Char) (offset : Nat),
    read offset (value.flatMap escapedInText ++ ['\''])
      = ⟨value.flatMap escapedInText ++ ['\''], value, true, []⟩
  | [], _ => rfl
  | c :: value, offset => by
    obtain ⟨offset', h⟩ := read_escapedInText c (value.flatMap escapedInText ++ ['\'']) offset
    rw [flatMap_cons, append_assoc, h, read_textLiteral value offset']
    rfl

end Cut.Quoted

theorem cut_textLiteral : cut '\'' (value.flatMap escapedInText ++ ['\'']) = ⟨textLiteral value,
      .token .text (textLiteral value) (some (.text (String.ofList value))), []⟩ := by
  have hquoted : cut '\'' (value.flatMap escapedInText ++ ['\''])
      = Cut.quoted (value.flatMap escapedInText ++ ['\'']) := rfl
  rw [hquoted, Cut.quoted, Cut.Quoted.read_textLiteral]
  rfl

theorem newline_notMem_textLiteral : '\n' ∉ textLiteral value := by
  have hescaped : ∀ c, '\n' ∉ escapedInText c := by
    intro c
    unfold escapedInText
    split
    · decide
    · decide
    · decide
    · decide
    · next hbreak _ => simpa using fun h => hbreak h.symm
  simp [textLiteral, hescaped]

theorem Scan.takePiece_of_cut {s : Scan} {c : Char} {text taken lexeme : List Char} {kind : Kind}
    {literal : Option Literal} (hrest : s.rest = c :: text)
    (hcut : cut c text = ⟨taken, .token kind lexeme literal, []⟩) :
    s.takePiece = (s.addToken kind lexeme literal).move taken := by
  simp only [Scan.takePiece, hrest, hcut]
  rfl

/-- The token of a text at the beginning of a source. -/
def ofText (value : List Char) : Token :=
  ⟨.text, String.ofList (textLiteral value), some (.text (String.ofList value)), .start⟩

/-- The tokens of a source that is one text. -/
def tokensOfText (value : List Char) : List Token :=
  let position := Position.start.right (textLiteral value).length
  [ofText value, ⟨.newline, "\n", none, position⟩, ⟨.eof, "", none, position⟩]

/-- **A text that is written in a source is scanned without a fault**, to one token with that very
text. -/
theorem scan_textLiteral : scan (textLiteral value) = ⟨tokensOfText value, []⟩ := by
  let inside : Scan := { Scan.start (textLiteral value) with atMargin := false }
  let behind : Scan := { inside with
    rest := []
    position := Position.start.right (textLiteral value).length
    tokens := [ofText value] }
  have hmargin : (Scan.start (textLiteral value)).step = inside := rfl
  have hpiece : inside.step = behind := by
    have hstep : inside.takePiece = _ := Scan.takePiece_of_cut rfl (cut_textLiteral value)
    rw [show inside.step = inside.takePiece from rfl, hstep, Scan.move, Scan.addToken_rest,
      Scan.addToken_position, Position.after_eq_right _ _ (newline_notMem_textLiteral value)]
    exact congrArg (fun rest => { behind with rest }) drop_length
  have hrun : (Scan.start (textLiteral value)).complete = behind := by
    rw [← Scan.complete_step (by simp [Scan.start, textLiteral]), hmargin,
      ← Scan.complete_step (by simp [inside, Scan.start, textLiteral]), hpiece,
      Scan.complete_of_rest_eq_nil rfl]
  rw [scan_eq, hrun]
  rfl

end Token

/-! ## Texts in the generated module -/

/-- The statement that a source of one text is. -/
def Stmt.ofText (value : List Char) : Stmt :=
  .expression (.literal (Token.ofText value) (.text (String.ofList value)))

theorem ofTokens_tokensOfText : Parsed.ofTokens (Token.tokensOfText value)
      = ⟨[.ofText value], [], Token.tokensOfText value, true⟩ :=
  rfl

theorem Script.render_ofText (runtime : String) (value : List Char) :
    (Script.ofProgram runtime [.ofText value]).render
      = "import * as $rt from " ++ Text.quote runtime ++ ";\n" ++
        (Text.quote (String.ofList value) ++ ";\n") := by
  let script := Script.ofProgram runtime [.ofText value]
  have hconstants : script.constants = [] := rfl
  have hindentation : indentation 0 = "" := rfl
  have hbody : renderBody 0 script.body = Text.quote (String.ofList value) ++ ";\n" := by
    simp only [script, Script.ofProgram, Stmt.ofText, generateBody, Stmt.generate, Expr.generate,
      Script.literal, renderBody, Line.render, Code.render, hindentation, String.empty_append,
      String.append_empty]
  have htext := script.render_eq
  rw [hconstants, hbody, map_nil, String.intercalate_nil, String.append_empty] at htext
  exact htext

theorem Session.compile_of_check {source tokens tokens' program c verdicts} (options : Options)
    (hscan : Token.scan source = ⟨tokens, []⟩)
    (hread : Parsed.ofTokens tokens = ⟨program, [], tokens', true⟩)
    (hcheck : Checker.start.check program = some (c, verdicts))
    (hnone : Verdict.diagnostics verdicts = []) :
    (start options).compile source = some (start options,
      .ok ⟨program, generate options program, Verdict.allDeclarations verdicts⟩) := by
  have habsorb : (start options).absorb source [] = start options := rfl
  have hcount : ∀ category, (start options).count category = 0 := fun _ => rfl
  have hoptions : (start options).options = options := rfl
  simp [compile, compileProgram, hscan, hread, hcheck, hnone, habsorb, hcount, hoptions,
    lexicalDiagnostics, Parsed.program?]

/-- **Texts survive compilation.**  A text written in a source is scanned without a fault, to one
token with that text; and the source compiles to a module whose one statement is a string of JSON,
without a raw character below the space, that stands for the same text. -/
theorem compile_textLiteral :
    Token.scan (Token.textLiteral value) = ⟨Token.tokensOfText value, []⟩ ∧
    ∃ quoted : String, (∀ options, ∃ compilation,
        (Session.start options).compile (Token.textLiteral value)
          = some (Session.start options, .ok compilation) ∧
        compilation.javascript = if options.mode = .check then "" else
          "import * as $rt from " ++ Text.quote options.runtime ++ ";\n" ++ (quoted ++ ";\n")) ∧
      (∀ c ∈ quoted.toList, 32 ≤ c.toNat) ∧
      Text.Quoted.decode? quoted.toList = some value := by
  have hscan := Token.scan_textLiteral value
  have hquoted : (Text.quote (String.ofList value)).toList = Text.Quoted.encode value := by
    rw [Text.quote, String.toList_ofList, String.toList_ofList]
  refine ⟨hscan, Text.quote (String.ofList value), ?_, ?_, ?_⟩
  · intro options
    refine ⟨⟨[.ofText value], Session.generate options [.ofText value], []⟩, ?_, ?_⟩
    · exact Session.compile_of_check options hscan (ofTokens_tokensOfText value) rfl rfl
    · change Session.generate options [.ofText value] = _
      rw [Session.generate, Script.render_ofText]
  · rw [hquoted]
    exact fun c => Text.Quoted.le_toNat_of_mem_encode
  · rw [hquoted]
    exact Text.Quoted.decode?_encode value

end Offside
