import Offside.Proofs.Brackets
import Offside.Proofs.Quoting
import Offside.Proofs.Trees

/-!
# Proofs/Nesting — brackets and strings of the generated code

Brackets of generated code are those that stand outside of its strings (`withoutStrings?`).  Reading
a text on from where some brackets are open leaves some open (`Leaves`), and texts in a row hand on
what they leave.  So the text of an expression or a statement is followed piece by piece: whatever
is open before it is open behind it (`shape_lines`), as long as its words bring in no brackets of
their own.  The names and numbers of a program that was read from a text bring in none, so its
module is properly nested, and so is what is written for each of its statements (`render_nested`).
-/

namespace Offside

open List

/-! ## Strings in a text -/

namespace Text

open Quoted (codes?)

/-- What the reader of a string does at a character, whatever follows it: it stops, or the string
ends, or it goes on. -/
theorem Quoted.codes?_cons (mode : Mode) (c : Char) :
    (∀ text, codes? mode (c :: text) = none) ∨ (∀ text, codes? mode (c :: text) = some ([], text)) ∨
    ∃ mode' first, ∀ text,
      codes? mode (c :: text) = (codes? mode' text).map (Prod.map (first ++ ·) id) := by
  have hid : ∀ found : Option (List Nat × List Char),
      found.map (Prod.map ([] ++ ·) id) = found := by
    intro found
    cases found <;> rfl
  cases mode with
  | plain =>
    by_cases hquote : c = '"'
    · exact .inr (.inl fun text => by simp [codes?, hquote])
    by_cases hbackslash : c = '\\'
    · exact .inr (.inr ⟨.escaped, [], fun text => by rw [hid]; simp [codes?, hbackslash]⟩)
    by_cases hlow : c.toNat < 32
    · exact .inl fun text => by simp [codes?, hquote, hbackslash, hlow]
    · refine .inr (.inr ⟨.plain, [c.toNat], fun text => ?_⟩)
      simp [codes?, hquote, hbackslash, hlow]
  | escaped =>
    by_cases hu : c = 'u'
    · exact .inr (.inr ⟨.digits 3 0, [], fun text => by rw [hid]; simp [codes?, hu]⟩)
    cases hd : unescape? c with
    | none => exact .inl fun text => by simp [codes?, hu, hd]
    | some d => exact .inr (.inr ⟨.plain, [d.toNat], fun text => by simp [codes?, hu, hd]⟩)
  | digits left value =>
    cases hd : hexValue? c with
    | none => exact .inl fun text => by cases left <;> simp [codes?, hd]
    | some digit =>
      refine .inr (.inr ?_)
      cases left with
      | zero => exact ⟨.plain, [16 * value + digit], fun text => by simp [codes?, hd]⟩
      | succ left =>
        exact ⟨.digits left (16 * value + digit), [], fun text => by rw [hid]; simp [codes?, hd]⟩

/-- **A string is read off a text without a look at what follows it.** -/
theorem Quoted.exists_of_codes? : ∀ {text rest mode codes},
    codes? mode text = some (codes, rest) → ∃ taken, text = taken ++ rest ∧ taken ≠ [] ∧
      ∀ more, codes? mode (taken ++ more) = some (codes, more)
  | [], rest, mode, codes, h => by
    cases h
  | c :: text, rest, mode, codes, h => by
    rcases codes?_cons mode c with hstop | hend | ⟨mode', first, hgo⟩
    · rw [hstop] at h
      cases h
    · rw [hend] at h
      cases h
      exact ⟨[c], rfl, cons_ne_nil _ _, hend⟩
    · rw [hgo] at h
      obtain ⟨⟨codes', rest'⟩, hlater, heq⟩ := Option.map_eq_some_iff.mp h
      cases heq
      obtain ⟨taken, htext, -, hmore⟩ := exists_of_codes? hlater
      refine ⟨c :: taken, congrArg (c :: ·) htext, cons_ne_nil _ _, fun more => ?_⟩
      rw [cons_append, hgo, hmore]
      rfl

theorem Quoted.length_of_codes? {mode text rest codes} (h : codes? mode text = some (codes, rest)) :
    rest.length < text.length := by
  obtain ⟨taken, rfl, hne, -⟩ := exists_of_codes? h
  have := length_pos_iff.mpr hne
  rw [length_append]
  omega

/-- **A text without its strings.** `none` if there is a quote that belongs to no string. -/
def withoutStrings? : List Char → Option (List Char)
  | [] => some []
  | c :: text =>
    if c = '"' then
      match h : codes? .plain text with
      | none => none
      | some (_, rest) =>
        have := Quoted.length_of_codes? h
        withoutStrings? rest
    else (withoutStrings? text).map (c :: ·)
termination_by text => text.length

theorem withoutStrings?_quote {text rest codes} (h : codes? .plain text = some (codes, rest)) :
    withoutStrings? ('"' :: text) = withoutStrings? rest := by
  rw [withoutStrings?, if_pos rfl]
  split
  · next hnone => simp [h] at hnone
  · next hsome =>
    rw [h] at hsome
    cases hsome
    rfl

theorem withoutStrings?_cons {c} (h : c ≠ '"') (text : List Char) :
    withoutStrings? (c :: text) = (withoutStrings? text).map (c :: ·) := by
  rw [withoutStrings?, if_neg h]

/-- Strings do not reach beyond a text whose own strings are complete. -/
theorem withoutStrings?_append {text code : List Char} (h : withoutStrings? text = some code)
    (more : List Char) :
    withoutStrings? (text ++ more) = (withoutStrings? more).map (code ++ ·) := by
  fun_induction withoutStrings? text generalizing code with
  | case1 =>
    cases h
    simp
  | case2 => cases h
  | case3 text codes rest hcodes _ ih =>
    obtain ⟨taken, rfl, -, hmore⟩ := Quoted.exists_of_codes? hcodes
    rw [cons_append, append_assoc, withoutStrings?_quote (hmore _), ih h]
  | case4 c text hc ih =>
    obtain ⟨code', hcode', rfl⟩ := Option.map_eq_some_iff.mp h
    rw [cons_append, withoutStrings?_cons hc, ih hcode', Option.map_map]
    rfl

theorem withoutStrings?_encode (value : List Char) :
    withoutStrings? (Quoted.encode value) = some [] := by
  rw [Quoted.encode, cons_append, withoutStrings?_quote (Quoted.codes?_encode value [])]
  rw [withoutStrings?]

theorem withoutStrings?_of_notMem : ∀ {text}, '"' ∉ text → withoutStrings? text = some text
  | [], _ => by rw [withoutStrings?]
  | c :: text, h => by
    obtain ⟨hc, htext⟩ := not_or.mp (mt mem_cons.mpr h)
    rw [withoutStrings?_cons (Ne.symm hc), withoutStrings?_of_notMem htext]
    rfl

end Text

open Text (withoutStrings?)

theorem Token.Spelled.char :
    ∀ {name}, Spelled name → ∀ c ∈ name, isWordChar c = true ∨ c = ' ' ∨ c = '?'
  | [], _ => forall_mem_nil _
  | [_], h => forall_mem_singleton.mpr (h.imp_right .inr)
  | _ :: _ :: _, h => forall_mem_cons.mpr ⟨h.1.imp_right .inl, h.2.char⟩

/-! ## Brackets outside of strings -/

/-- **A properly nested text**: every quote belongs to a string, and the brackets outside of the
strings are nested. -/
def ProperlyNested (text : String) : Prop :=
  ∃ code, withoutStrings? text.toList = some code ∧ Edge.Nests (code.filterMap Edge.ofChar?)

/-- Reading a text on from where some brackets are open leaves some open. -/
def Leaves (text : String) (opened opened' : List Bracket) : Prop :=
  ∃ code, withoutStrings? text.toList = some code ∧
    (code.filterMap Edge.ofChar?).foldlM Edge.follow opened = some opened'

variable {opened : List Bracket} {text : String}

theorem properlyNested_iff : ProperlyNested text ↔ Leaves text [] [] := by
  simp only [ProperlyNested, Leaves, Edge.nests_iff]

/-- Texts in a row leave brackets open one after the other. -/
theorem Leaves.append {more opened' opened''} (h : Leaves text opened opened')
    (hmore : Leaves more opened' opened'') : Leaves (text ++ more) opened opened'' := by
  obtain ⟨code, hcode, hopened⟩ := h
  obtain ⟨code', hcode', hopened'⟩ := hmore
  refine ⟨code ++ code', ?_, ?_⟩
  · rw [String.toList_append, Text.withoutStrings?_append hcode, hcode']
    rfl
  · rw [filterMap_append, foldlM_append, hopened]
    exact hopened'

/-- A text without quotes, followed from where some brackets are open. -/
def trail? (mark : String) (opened : List Bracket) : Option (List Bracket) :=
  if mark.toList.contains '"' then none
  else (mark.toList.filterMap Edge.ofChar?).foldlM Edge.follow opened

theorem leaves_mark (mark : String) (opened : List Bracket) {opened'}
    (h : trail? mark opened = some opened') : Leaves mark opened opened' := by
  unfold trail? at h
  split at h
  · cases h
  · next hquote =>
    exact ⟨_, Text.withoutStrings?_of_notMem (by simpa using hquote), h⟩

theorem leaves_quote (value : String) (opened : List Bracket) :
    Leaves (Text.quote value) opened opened := by
  refine ⟨[], ?_, rfl⟩
  rw [Text.quote, String.toList_ofList, Text.withoutStrings?_encode]

/-- A text without quotes and brackets. -/
def IsBare (text : String) : Prop := ∀ c ∈ text.toList, c ≠ '"' ∧ Edge.ofChar? c = none

theorem IsBare.append {a b} (ha : IsBare a) (hb : IsBare b) : IsBare (a ++ b) := by
  intro c hc
  rw [String.toList_append] at hc
  exact (mem_append.mp hc).elim (ha c) (hb c)

theorem IsBare.leaves (h : IsBare text) (opened : List Bracket) : Leaves text opened opened := by
  refine ⟨text.toList, Text.withoutStrings?_of_notMem fun hmem => (h _ hmem).1 rfl, ?_⟩
  rw [filterMap_eq_nil_iff.mpr fun c hc => (h c hc).2]
  rfl

namespace Script

theorem leaves_indentation (depth : Nat) (opened : List Bracket) :
    Leaves (indentation depth) opened opened := by
  refine IsBare.leaves (fun c hc => ?_) opened
  rw [indentation, toList_pushn] at hc
  obtain rfl := eq_of_mem_replicate hc
  exact ⟨by decide, rfl⟩

theorem leaves_intercalate {mark} (hmark : Leaves mark opened opened) : ∀ {texts},
      (∀ text ∈ texts, Leaves text opened opened) → Leaves (mark.intercalate texts) opened opened
  | [], _ => leaves_mark "" opened rfl
  | [text], h => h text mem_cons_self
  | first :: second :: later, h => by
    obtain ⟨hfirst, hlater⟩ := forall_mem_cons.mp h
    rw [String.intercalate_cons_cons]
    exact (hfirst.append hmark).append (leaves_intercalate hmark hlater)

theorem leaves_commas {texts} (h : ∀ text ∈ texts, Leaves text opened opened) :
    Leaves (commas texts) opened opened :=
  leaves_intercalate (leaves_mark ", " opened rfl) h

/-! ## The words in code -/

section

variable (P : String → Prop)

mutual

/-- Holds of the words in an expression. -/
def Code.Words : Code → Prop
  | .number digits => P (constantName digits)
  | .text _ | .boolean _ | .null => True
  | .name name => P (bindingName name)
  | .builtin name => P (memberName name)
  | .primitive _ arguments => WordsAll arguments
  | .call callee arguments => callee.Words ∧ WordsAll arguments
  | .array elements => WordsAll elements
  | .object properties => WordsProperties properties
  | .arrow parameters body => (∀ name ∈ parameters, P (bindingName name)) ∧ WordsBody body
  | .group inner => inner.Words
  | .not operand => operand.Words
  | .connective _ left right => left.Words ∧ right.Words
  | .conditional test consequent alternative =>
    test.Words ∧ consequent.Words ∧ alternative.Words
  | .assign name value => P (bindingName name) ∧ value.Words
  | .assignField object field value => object.Words ∧ P (memberName field) ∧ value.Words

/-- Holds of the words in expressions. -/
def WordsAll : List Code → Prop
  | [] => True
  | first :: later => first.Words ∧ WordsAll later

/-- Holds of the words in the properties of an object. -/
def WordsProperties : List Property → Prop
  | [] => True
  | .mk name value :: later => (P (memberName name) ∧ value.Words) ∧ WordsProperties later

/-- Holds of the words in a statement. -/
def Line.Words : Line → Prop
  | .expression code => code.Words
  | .block body => WordsBody body
  | .branch test body rest => test.Words ∧ WordsBody body ∧ rest.Words
  | .loop test body => test.Words ∧ WordsBody body
  | .leave => True
  | .answer code => code.Words
  | .declare _ name code => P (bindingName name) ∧ code.Words

/-- Holds of the words in what a conditional statement does where its test fails. -/
def Alternative.Words : Alternative → Prop
  | .nothing => True
  | .body body => WordsBody body
  | .branch test body rest => test.Words ∧ WordsBody body ∧ rest.Words

/-- Holds of the words in statements. -/
def WordsBody : List Line → Prop
  | [] => True
  | first :: later => first.Words ∧ WordsBody later

end

end

/-! ## The text of code -/

/-- The characters that stand around names. -/
def delimiters : List Char :=
  [' ', '\n', '(', ')', '[', ']', '\x7b', '\x7d', ',', ';', ':', '.', '!']

/-- A text that is empty or ends in a delimiter. -/
def endsApart (text : String) : Bool := text.toList.getLast?.all delimiters.contains

/-- A text that begins and ends with delimiters. -/
def isMark (text : String) : Bool :=
  text.toList.head?.any delimiters.contains && endsApart text

/-- **The shape of a text**, with the numbers cited in it and the brackets that are open before it
and behind it: words with marks between them.  It may stand in front of any other if it ends in a
mark, or else in front of a mark. -/
inductive Shape : Bool → List String → String → List Bracket → List Bracket → Prop
  | word {text opened opened'} (h : Leaves text opened opened') : Shape false [] text opened opened'
  | constant {digits opened} (h : IsBare (constantName digits)) :
    Shape false [digits] (constantName digits) opened opened
  | space {text opened opened'} (h : Leaves text opened opened') (hends : endsApart text = true) :
    Shape true [] text opened opened'
  | append {ends numbers more text later opened opened' opened''}
    (h : Shape true numbers text opened opened') (hlater : Shape ends more later opened' opened'') :
    Shape ends (numbers ++ more) (text ++ later) opened opened''
  | before {numbers text mark opened opened' opened''} (h : Shape false numbers text opened opened')
    (hmark : isMark mark = true) (hleaves : Leaves mark opened' opened'') :
    Shape true numbers (text ++ mark) opened opened''
  | of_apart {numbers text opened opened'} (h : Shape true numbers text opened opened') :
    Shape false numbers text opened opened'

namespace Shape

variable {ends : Bool} {numbers : List String} {opened' opened'' : List Bracket}

theorem leaves (h : Shape ends numbers text opened opened') : Leaves text opened opened' := by
  induction h with
  | word h | space h => exact h
  | constant h => exact h.leaves _
  | append _ _ ih ih' => exact ih.append ih'
  | before _ _ hleaves ih => exact ih.append hleaves
  | of_apart _ ih => exact ih

theorem start (mark : String) (h : trail? mark opened = some opened')
    (hends : endsApart mark = true) : Shape true [] mark opened opened' :=
  .space (leaves_mark mark opened h) hends

/-- A mark behind a word. -/
theorem mark (h : Shape false numbers text opened opened') (mark : String)
    (hleaves : trail? mark opened' = some opened'') (hmark : isMark mark = true) :
    Shape true numbers (text ++ mark) opened opened'' :=
  h.before hmark (leaves_mark mark opened' hleaves)

/-- A mark behind a word, for another one to stand behind it. -/
theorem close (h : Shape false numbers text opened opened') (mark : String)
    (hleaves : trail? mark opened' = some opened'') (hmark : isMark mark = true) :
    Shape false numbers (text ++ mark) opened opened'' :=
  (h.mark mark hleaves hmark).of_apart

section

variable (h : Shape true numbers text opened opened')

include h

theorem follow {word} (hword : Leaves word opened' opened'') :
    Shape false numbers (text ++ word) opened opened'' := by
  simpa using h.append (.word hword)

/-- A mark behind another. -/
theorem apart (mark : String) (hleaves : trail? mark opened' = some opened'')
    (hends : endsApart mark = true) : Shape true numbers (text ++ mark) opened opened'' := by
  simpa using h.append (.start mark hleaves hends)

end

theorem indented (depth : Nat) (opened : List Bracket) :
    Shape true [] (indentation depth) opened opened := by
  refine .space (leaves_indentation depth opened) (Option.all_eq_true _ _ |>.mpr fun c hc => ?_)
  rw [indentation, toList_pushn] at hc
  obtain rfl := eq_of_mem_replicate (mem_of_getLast? hc)
  rfl

theorem indent (h : Shape true numbers text opened opened') (depth : Nat) :
    Shape true numbers (text ++ indentation depth) opened opened' := by
  simpa using h.append (.indented depth opened')

end Shape

mutual

/-- **The text of code is well shaped** if its words are bare. -/
theorem Code.shape {depth opened} :
    ∀ code : Code, code.Words IsBare → Shape false code.numbers (code.render depth) opened opened
  | .number _, h => .constant h
  | .name _, h => .word (h.leaves _)
  | .text value, _ => .word (leaves_quote value _)
  | .boolean true, _ | .boolean false, _
  | .null, _ => by
    rw [Code.render]
    exact .word (leaves_mark _ _ rfl)
  | .builtin name, h =>
    Shape.start "$rt." rfl rfl
      |>.follow (h.leaves _)
  | .primitive op arguments, h => by
    have hname : Leaves op.name opened opened := by
      cases op with
      | operator op => cases op <;> exact leaves_mark _ _ rfl
      | _ => exact leaves_mark _ _ rfl
    exact Shape.start "$rt." rfl rfl
      |>.follow hname
      |>.mark "(" rfl rfl
      |>.append (shape_codes arguments h)
      |>.close ")" rfl rfl
  | .call callee arguments, h =>
    callee.shape h.1
      |>.mark "(" rfl rfl
      |>.append (shape_codes arguments h.2)
      |>.close ")" rfl rfl
  | .array elements, h =>
    Shape.start "[" rfl rfl
      |>.append (shape_codes elements h)
      |>.close "]" rfl rfl
  | .object properties, h =>
    Shape.start objectOpening rfl rfl
      |>.append (shape_properties properties h)
      |>.follow (leaves_mark objectClosing _ rfl)
  | .arrow parameters body, h => by
    have hnames : ∀ word ∈ parameters.map bindingName,
        Leaves word (.round :: opened) (.round :: opened) := by
      simp only [forall_mem_map]
      exact fun name hname => (h.1 name hname).leaves _
    exact Shape.start "(" rfl rfl
      |>.follow (leaves_commas hnames)
      |>.mark ") => \x7b\n" rfl rfl
      |>.append (shape_lines body h.2)
      |>.indent _
      |>.follow (leaves_mark "\x7d" _ rfl)
  | .group inner, h =>
    Shape.start "(" rfl rfl
      |>.append (inner.shape h)
      |>.close ")" rfl rfl
  | .not operand, h =>
    Shape.start "!" rfl rfl
      |>.append (operand.shape h)
  | .connective op left right, h => by
    have hsymbol : Leaves op.symbol (.round :: opened) (.round :: opened) := by
      cases op <;> exact leaves_mark _ _ rfl
    exact Shape.start "(" rfl rfl
      |>.append (left.shape h.1)
      |>.mark " " rfl rfl
      |>.follow hsymbol
      |>.mark " " rfl rfl
      |>.append (right.shape h.2)
      |>.close ")" rfl rfl
  | .conditional test consequent alternative, h =>
    Shape.start "(" rfl rfl
      |>.append (test.shape h.1)
      |>.mark " ? " rfl rfl
      |>.append (consequent.shape h.2.1)
      |>.mark " : " rfl rfl
      |>.append (alternative.shape h.2.2)
      |>.close ")" rfl rfl
  | .assign name value, h =>
    Shape.word (h.1.leaves _)
      |>.mark " = " rfl rfl
      |>.append (value.shape h.2)
  | .assignField object field value, h =>
    object.shape h.1
      |>.mark "." rfl rfl
      |>.follow (h.2.1.leaves _)
      |>.mark " = " rfl rfl
      |>.append (value.shape h.2.2)

theorem shape_codes {depth opened} : ∀ codes : List Code,
    WordsAll IsBare codes →
      Shape false (numbersOfAll codes) (commas (renderAll depth codes)) opened opened
  | [], _ => .word (leaves_mark "" _ rfl)
  | [code], h => by
    simpa [numbersOfAll, renderAll, commas] using code.shape h.1
  | first :: second :: later, h => by
    rw [numbersOfAll, renderAll, renderAll, commas, String.intercalate_cons_cons]
    exact first.shape h.1
      |>.mark ", " rfl rfl
      |>.append (shape_codes (second :: later) h.2)

theorem shape_properties {depth opened} : ∀ properties : List Property,
    WordsProperties IsBare properties → Shape true (numbersOfProperties properties)
      (renderProperties depth properties) opened opened
  | [], _ => .start "" rfl rfl
  | .mk _ value :: later, h =>
    Shape.start "$r." rfl rfl
      |>.follow (h.1.1.leaves _)
      |>.mark " = " rfl rfl
      |>.append (value.shape h.1.2)
      |>.mark "; " rfl rfl
      |>.append (shape_properties later h.2)

/-- **The text of a statement is well shaped** if its words are bare. -/
theorem Line.shape {depth opened} :
    ∀ line : Line, line.Words IsBare → Shape true line.numbers (line.render depth) opened opened
  | .expression code, h =>
    Shape.indented _ _
      |>.append (code.shape h)
      |>.mark ";\n" rfl rfl
  | .block body, h =>
    Shape.indented _ _
      |>.apart "\x7b\n" rfl rfl
      |>.append (shape_lines body h)
      |>.indent _
      |>.apart "\x7d\n" rfl rfl
  | .branch test body rest, h =>
    Shape.indented _ _
      |>.apart "if (" rfl rfl
      |>.append (test.shape h.1)
      |>.mark ") \x7b\n" rfl rfl
      |>.append (shape_lines body h.2.1)
      |>.append (rest.shape h.2.2)
  | .loop test body, h =>
    Shape.indented _ _
      |>.apart "while (" rfl rfl
      |>.append (test.shape h.1)
      |>.mark ") \x7b\n" rfl rfl
      |>.append (shape_lines body h.2)
      |>.indent _
      |>.apart "\x7d\n" rfl rfl
  | .leave, _ =>
    Shape.indented _ _
      |>.apart "break;\n" rfl rfl
  | .answer code, h =>
    Shape.indented _ _
      |>.apart "return " rfl rfl
      |>.append (code.shape h)
      |>.mark ";\n" rfl rfl
  | .declare mutable name code, h => by
    have hkeyword : Shape true [] (if mutable then "let " else "const ") opened opened := by
      cases mutable <;> exact .start _ rfl rfl
    exact (Shape.indented _ _).append hkeyword
      |>.follow (h.1.leaves _)
      |>.mark " = " rfl rfl
      |>.append (code.shape h.2)
      |>.mark ";\n" rfl rfl

/-- A branch is still open where the text of the next one begins. -/
theorem Alternative.shape {depth opened} : ∀ rest : Alternative,
    rest.Words IsBare → Shape true rest.numbers (rest.render depth) (.curly :: opened) opened
  | .nothing, _ =>
    Shape.indented _ _
      |>.apart "\x7d\n" rfl rfl
  | .body body, h =>
    Shape.indented _ _
      |>.apart "\x7d else \x7b\n" rfl rfl
      |>.append (shape_lines body h)
      |>.indent _
      |>.apart "\x7d\n" rfl rfl
  | .branch test body rest, h =>
    Shape.indented _ _
      |>.apart "\x7d else if (" rfl rfl
      |>.append (test.shape h.1)
      |>.mark ") \x7b\n" rfl rfl
      |>.append (shape_lines body h.2.1)
      |>.append (rest.shape h.2.2)

/-- **What is open before statements is open behind them.** -/
theorem shape_lines {depth opened} : ∀ body : List Line,
    WordsBody IsBare body → Shape true (numbersOfBody body) (renderBody depth body) opened opened
  | [], _ => .start "" rfl rfl
  | first :: later, h =>
    first.shape h.1
      |>.append (shape_lines later h.2)

end

/-! ## The words of a program -/

theorem isBare_memberName {name} (h : Token.Spelled name.toList) : IsBare (memberName name) := by
  intro d hd
  rw [memberName, String.toList_ofList] at hd
  obtain ⟨c, hc, rfl⟩ := mem_map.mp hd
  rcases h.char c hc with hword | rfl | rfl
  · rw [nameChar_of_isWordChar hword]
    refine ⟨?_, (Edge.plain_isWordChar hword).ofChar?⟩
    rintro rfl
    exact absurd hword (by decide +kernel)
  · exact ⟨by decide, rfl⟩
  · exact ⟨by decide, rfl⟩

theorem isBare_bindingName {name} (h : Token.Spelled name.toList) : IsBare (bindingName name) := by
  unfold bindingName
  dsimp only
  split
  · have hdollars : IsBare "$$" := by
      intro c hc
      obtain rfl : c = '$' := by simpa using hc
      exact ⟨by decide, rfl⟩
    exact hdollars.append (isBare_memberName h)
  · exact isBare_memberName h

/-- The name of a constant is bare. -/
theorem isBare_constantName {digits} (h : Token.IsNumber digits) :
    IsBare (constantName digits) := by
  intro d hd
  rw [toList_constantName] at hd
  rcases mem_cons.mp hd with rfl | hd
  · exact ⟨by decide, rfl⟩
  rcases mem_cons.mp hd with rfl | hd
  · exact ⟨by decide, rfl⟩
  obtain ⟨c, hc, rfl⟩ := mem_map.mp hd
  have hnumber := h c hc
  unfold numberChar
  split
  · exact ⟨by decide, rfl⟩
  · exact ⟨by decide, rfl⟩
  · exact ⟨by decide, rfl⟩
  · refine ⟨?_, (Edge.plain_of (p := Token.Cut.isNumberChar) (by decide) hnumber).ofChar?⟩
    rintro rfl
    exact absurd hnumber (by decide)

theorem words_tested {code names e} (h : code.Words IsBare) :
    (tested names e code).Words IsBare := by
  unfold tested
  split
  · exact h
  · exact ⟨h, trivial⟩

theorem words_reference {t} (h : spelled.name t) (names : List String) :
    (reference names t.lexeme).Words IsBare := by
  unfold reference
  split
  · exact isBare_memberName h
  · exact isBare_bindingName h

theorem words_function {parameters body} (hparameters : ∀ t ∈ parameters, spelled.name t)
    (hbody : WordsBody IsBare body) : (function parameters body).Words IsBare := by
  simp only [function, Code.Words, WordsAll, and_true, forall_mem_map]
  exact ⟨fun t ht => isBare_bindingName (hparameters t ht), hbody⟩

end Script

open Script

/-- **The words in the code of a tree are bare** where the names of the tree are spelled as names
are and its numbers as numbers. -/
theorem words_generate : Claim.Passes ⟨
    fun e => ∀ names, e.Names spelled → (e.generate names).Words IsBare,
    Claim.OfIndex fun e => ∀ names, e.Names spelled → (e.generate names).Words IsBare,
    fun es => ∀ names, NamesAll spelled es → WordsAll IsBare (generateAll names es),
    fun fields => ∀ names, NamesFields spelled fields →
      WordsProperties IsBare (generateFields names fields),
    fun st => ∀ names, st.Names spelled → (st.generate names).Words IsBare,
    fun rest => ∀ names, rest.Names spelled → (rest.generate names).Words IsBare,
    fun body => ∀ names, NamesBody spelled body → WordsBody IsBare (generateBody names body)⟩ where
  ternary htest hconsequent halternative _ h :=
    ⟨words_tested (htest _ h.1), hconsequent _ h.2.1, halternative _ h.2.2⟩
  binary {op _ _ _} hleft hright names h := by
    rw [Expr.generate]
    cases connective? op with
    | some _ => exact ⟨words_tested (hleft names h.1), words_tested (hright names h.2)⟩
    | none => exact ⟨hleft names h.1, hright names h.2, trivial⟩
  literal {_ value} _ h := by
    cases value with
    | number digits => exact isBare_constantName (h digits rfl)
    | _ => exact trivial
  unary {op _ _} hoperand names h := by
    cases op with
    | negate => exact ⟨hoperand names h, trivial⟩
    | not => exact words_tested (hoperand names h)
  name names h := words_reference h names
  assign hvalue _ h := ⟨isBare_bindingName h.1, hvalue _ h.2⟩
  call hcallee hgiven _ h := ⟨hcallee _ h.1, hgiven _ h.2⟩
  get {_ member} hobject hmember names h := by
    cases member with
    | field _ => exact ⟨hobject names h.1, trivial, trivial⟩
    | index _ _ => exact ⟨hobject names h.1, hmember names h.2, trivial⟩
  set {_ member _} hobject hmember hvalue names h := by
    cases member with
    | field _ => exact ⟨hobject names h.1, isBare_memberName h.2.1, hvalue names h.2.2⟩
    | index _ _ => exact ⟨hobject names h.1, hmember names h.2.1, hvalue names h.2.2, trivial⟩
  lambda hbody _ h := words_function h.1 (hbody _ h.2)
  nilExprs _ _ := trivial
  consExprs hfirst hlater _ h := ⟨hfirst _ h.1, hlater _ h.2⟩
  nilFields _ _ := trivial
  consFields hvalue hlater _ h := ⟨⟨isBare_memberName h.1.1, hvalue _ h.1.2⟩, hlater _ h.2⟩
  branch htest hbody hrest _ h := ⟨words_tested (htest _ h.1), hbody _ h.2.1, hrest _ h.2.2⟩
  loop htest hbody _ h := ⟨words_tested (htest _ h.1), hbody _ h.2⟩
  leave _ _ := trivial
  function hbody _ h := ⟨isBare_bindingName h.1, words_function h.2.1 (hbody _ h.2.2)⟩
  bareAnswer _ _ := trivial
  declare hvalue _ h := ⟨isBare_bindingName h.1, hvalue _ h.2.2⟩
  nothing _ _ := trivial
  elseIf htest hbody hrest _ h := ⟨words_tested (htest _ h.1), hbody _ h.2.1, hrest _ h.2.2⟩
  nilBody _ _ := trivial
  consBody hfirst hlater _ h := ⟨hfirst _ h.1, hlater _ h.2⟩

namespace Script

/-! ## The statements of a module -/

/-- The names in scope behind statements. -/
def namesBehind (names : List String) (body : List Stmt) : List String :=
  body.foldl (fun names statement => declaring statement names) names

theorem generateBody_append (after before : List Stmt) (names : List String) :
    generateBody names (before ++ after)
      = generateBody names before ++ generateBody (namesBehind names before) after := by
  induction before generalizing names with
  | nil =>
    rfl
  | cons first before ih =>
    rw [cons_append, generateBody, generateBody, ih]
    rfl

theorem generateBody_split (before : List Stmt) (statement : Stmt) (after : List Stmt) :
    generateBody [] (before ++ statement :: after)
      = generateBody [] before ++ statement.generate (namesBehind [] before) ::
        generateBody (namesBehind [] (before ++ [statement])) after := by
  have hnames : namesBehind [] (before ++ [statement])
      = declaring statement (namesBehind [] before) := foldl_append
  rw [generateBody_append, generateBody, hnames]

@[simp] theorem renderBody_append (depth : Nat) (after : List Line) : ∀ before : List Line,
    renderBody depth (before ++ after) = renderBody depth before ++ renderBody depth after
  | [] => by rw [renderBody, String.empty_append, nil_append]
  | first :: before => by
    rw [cons_append, renderBody, renderBody, renderBody_append depth after before,
      String.append_assoc]

theorem wordsBody_append {P after} :
    ∀ {before}, WordsBody P (before ++ after) → WordsBody P before ∧ WordsBody P after
  | [], h => ⟨trivial, h⟩
  | first :: before, h => by
    obtain ⟨hbefore, hafter⟩ := wordsBody_append h.2
    exact ⟨⟨h.1, hbefore⟩, hafter⟩

/-- What a module has before its statements. -/
def heading (script : Script) : String :=
  "import * as $rt from " ++ Text.quote script.runtime ++ ";\n" ++
    "".intercalate (script.constants.map constantLine)

theorem leaves_constantLine {digits} (h : Token.IsNumber digits) :
    Leaves (constantLine digits) [] [] :=
  leaves_mark "const " [] rfl
    |>.append ((isBare_constantName h).leaves _)
    |>.append (leaves_mark " = $rt.num(" _ rfl)
    |>.append (leaves_quote digits _)
    |>.append (leaves_mark ");\n" _ rfl)

theorem leaves_heading {script : Script}
    (h : ∀ digits ∈ numbersOfBody script.body, Token.IsNumber digits) :
    Leaves script.heading [] [] := by
  have hconstants : ∀ line ∈ script.constants.map constantLine, Leaves line [] [] := by
    refine forall_mem_map.mpr fun digits hdigits => leaves_constantLine (h digits ?_)
    rw [constants, show [] = map constantName [] from rfl,
      distinctNumbers_eq _ [] h (forall_mem_nil _)] at hdigits
    exact (mem_filter.mp (mem_eraseDups.mp hdigits)).1
  exact leaves_mark "import * as $rt from " [] rfl
    |>.append (leaves_quote script.runtime _)
    |>.append (leaves_mark ";\n" _ rfl)
    |>.append (leaves_intercalate (leaves_mark "" _ rfl) hconstants)

end Script

/-- **Generated code is properly nested.**  The module of a program that was read from a text is,
and so is what is written before, for and behind each of its statements; whatever the runtime
library is called. -/
theorem render_nested {text : List Char} {program : List Stmt} (runtime : String)
    (h : (Parsed.ofTokens (Token.scan text).tokens).program? = some program) :
    let script := Script.ofProgram runtime program
    ProperlyNested script.render ∧
    ∀ before statement after, program = before ++ statement :: after →
      let lead := script.heading ++ renderBody 0 (generateBody [] before)
      let line := (statement.generate (namesBehind [] before)).render 0
      let rest := renderBody 0 (generateBody (namesBehind [] (before ++ [statement])) after)
      script.render = lead ++ line ++ rest ∧
        ProperlyNested lead ∧ ProperlyNested line ∧ ProperlyNested rest := by
  intro script
  have hnumbers : ∀ digits ∈ numbersBody program, Token.IsNumber digits := by
    rw [numbers_of_program? h]
    exact Token.isNumber_of_mem_numbersAmong text
  have hwords := words_generate.body program [] (wellSpelled_of_program? h)
  have hheading : Leaves script.heading [] [] :=
    Script.leaves_heading ((numbers_generate.body program []).symm ▸ hnumbers)
  simp only [properlyNested_iff]
  refine ⟨hheading.append (Script.shape_lines script.body hwords).leaves, ?_⟩
  rintro before statement after rfl
  have hbody := Script.generateBody_split before statement after
  rw [hbody] at hwords
  obtain ⟨hbefore, hafter⟩ := Script.wordsBody_append hwords
  refine ⟨?_, hheading.append (Script.shape_lines _ hbefore).leaves,
    (Script.Line.shape _ hafter.1).leaves, (Script.shape_lines _ hafter.2).leaves⟩
  have hrender : script.render = script.heading ++ renderBody 0 script.body := rfl
  rw [hrender, show script.body = _ from hbody, Script.renderBody_append, renderBody,
    ← String.append_assoc, ← String.append_assoc]

/-- Strings with quotes, brackets and a line break in them, among brackets of every kind. -/
def quotedBrackets : String :=
  "var r : \x7ba: '\")(', b: [1, (2 + 3)]\x7d\nif 1 < 2\n  log(['x\\n]', 'y'])\nelse\n" ++
    "  var f : fn (x): x ? 'a' ! '\x7b'\n"

theorem render_nested_quotedBrackets : ∃ first second,
    (Parsed.ofTokens (Token.scan quotedBrackets.toList).tokens).program? = some [first, second] ∧
      ProperlyNested (Script.ofProgram "a\"b" [first, second]).render ∧
      ProperlyNested ((second.generate (namesBehind [] [first])).render 0) := by
  have hlength : ((Parsed.ofTokens (Token.scan quotedBrackets.toList).tokens).program?.map
      length) = some 2 := by
    decide +kernel
  obtain ⟨program, hprogram, hlength⟩ := Option.map_eq_some_iff.mp hlength
  obtain ⟨first, second, rfl⟩ := length_eq_two.mp hlength
  obtain ⟨hrender, hstatements⟩ := render_nested "a\"b" hprogram
  exact ⟨first, second, hprogram, hrender, (hstatements [first] second [] rfl).2.2.1⟩

end Offside
