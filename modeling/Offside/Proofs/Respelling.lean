import Offside.Proofs.Layout

/-!
# Proofs/Respelling — what becomes of the tokens of a program

Reading tells a name that leads a statement apart, and leaves every other token as it is.  A name
behind a keyword leads nothing, so none is told apart twice (`Derives.orderly`), and the words of a
program are its tokens with some leading names spelled as keywords (`Respelled`).  The tree holds
the names and literals among them, each once and in order (`leaves_of_program?`).
-/

namespace Offside

open List

/-! ## Behind a keyword -/

/-- Whether a token of this kind is a keyword. -/
def isKeyword : Token.Kind → Bool
  | .keyword _ => true
  | _ => false

theorem isKeyword_of_isSymbol {k} (h : Cursor.isSymbol k = true) : isKeyword k = false := by
  cases k with
  | keyword => cases h
  | _ => rfl

/-- The first word is no name and no keyword that leads. -/
def Quiet (words : List Word) : Prop :=
  ∀ w ∈ words.head?, w.role.leads = true →
    w.token.kind ≠ .identifier ∧ isKeyword w.token.kind = false

/-- No word that leads is a name or a keyword behind another keyword. -/
def Orderly : List Word → Prop
  | [] => True
  | w :: words => (isKeyword w.token.kind = true → Quiet words) ∧ Orderly words

section

variable {t : Token} {role : Role} {words mid after : List Word}

theorem quiet_cons_inner : Quiet (⟨t, .inner⟩ :: words) := by
  rintro _ ⟨⟩ hleads
  cases hleads

theorem Orderly.plain {k} (h : Orderly words) (ht : t.kind = k) (hk : isKeyword k = false) :
    Orderly (⟨t, role⟩ :: words) := by
  refine ⟨fun hkeyword => ?_, h⟩
  rw [ht, hk] at hkeyword
  cases hkeyword

theorem Orderly.keyword (h : Orderly words) (hquiet : Quiet words) : Orderly (⟨t, role⟩ :: words) :=
  ⟨fun _ => hquiet, h⟩

theorem Ending.quiet (h : Ending mid after) : Quiet mid := by
  cases h with
  | newline => exact quiet_cons_inner
  | dedent hw =>
    rintro _ ⟨⟩ -
    rw [hw]
    exact ⟨nofun, rfl⟩
  | final => rintro _ ⟨⟩

theorem Ending.orderly (h : Ending mid after) (hafter : Orderly after) : Orderly mid := by
  cases h with
  | newline ht => exact hafter.plain ht rfl
  | dedent | final => exact hafter

theorem Closing.orderly (h : Closing mid after) (hafter : Orderly after) : Orderly mid := by
  cases h with
  | dedent ht => exact hafter.plain ht rfl
  | final => exact hafter

theorem orderly_of_end (h : mid = after ∨ Ending mid after) (hafter : Orderly after) :
    Orderly mid := by
  rcases h with rfl | hending
  · exact hafter
  · exact hending.orderly hafter

end

/-- The trees of a category begin with a word that does not lead. -/
def Category.Inner : Category → Prop
  | .expression role => role = .inner
  | .block _ => True
  | _ => False

variable {words before after : List Word} {tokens : List Token}

/-- What follows a keyword begins with a word that does not lead. -/
theorem Derives.quiet {c tree} (h : Derives c before tree after) (hc : c.Inner) : Quiet before := by
  induction h with
  | literal | name | group | list | record | unary | functionLiteral =>
    obtain rfl : _ = Role.inner := hc
    exact quiet_cons_inner
  | call _ _ _ _ ih | getField _ _ _ ih | getIndex _ _ _ _ ih | binary _ _ _ _ ih
  | ternary _ _ _ _ _ ih => exact ih hc
  | block => exact quiet_cons_inner
  | _ => exact hc.elim

@[simp] theorem isKeyword_separator (item : Category) : isKeyword item.separator = false := by
  cases item <;> rfl

theorem isKeyword_literal :
    ∀ k ∈ [Token.Kind.number, .text, .true, .false, .null], isKeyword k = false := by
  decide

/-- **A name behind a keyword leads nothing.** -/
theorem Derives.orderly {c tree} (h : Derives c before tree after) (hafter : Orderly after) :
    Orderly before := by
  induction h with
  | none => exact hafter
  | further _ _ htrees htree => exact htrees (htree hafter)
  | @separator item _ _ _ _ _ ht htrees => exact htrees (hafter.plain ht (isKeyword_separator item))
  | named ht | optional ht | parameter ht | name _ ht => exact hafter.plain ht rfl
  | applied ht _ hopener _ hcloser harguments =>
    exact ((harguments (hafter.plain hcloser rfl)).plain hopener rfl).plain ht rfl
  | maybe _ hquestion htype => exact htype (hafter.plain hquestion rfl)
  | listType hopener _ hcloser ih | recordType hopener _ hcloser ih
  | groupedType hopener _ hcloser ih | typed hopener _ hcloser ih
  | parameters hopener _ _ hcloser ih | group hopener _ hcloser ih | list hopener _ hcloser ih
  | record hopener _ _ hcloser ih =>
    exact (ih (hafter.plain hcloser rfl)).plain hopener rfl
  | functionType hparen _ hcloser harrow _ hparameters hresult =>
    exact (hparameters (((hresult hafter).plain harrow rfl).plain hcloser rfl)).plain hparen rfl
  | typeField hkey hcolon _ ih | field hkey hcolon _ ih =>
    exact ((ih hafter).plain hcolon rfl).plain hkey rfl
  | untyped => exact hafter
  | shortBody hcolon _ hvalue => exact (hvalue hafter).plain hcolon rfl
  | longBody _ hbody => exact hbody hafter
  | literal _ ht => exact hafter.plain rfl (isKeyword_literal _ ht)
  | call _ hopener _ hcloser htarget ih | getIndex _ hopener _ hcloser htarget ih =>
    exact htarget ((ih (hafter.plain hcloser rfl)).plain hopener rfl)
  | getField _ hdot hname hobject => exact hobject ((hafter.plain hname rfl).plain hdot rfl)
  | unary hop _ hoperand =>
    have hsymbol := Nested.isSymbol_of_unaryOp? hop
    exact (hoperand hafter).plain rfl (isKeyword_of_isSymbol hsymbol)
  | binary hrung hop _ _ hleft hright =>
    have hsymbol := Nested.isSymbol_of_mem_ladder _ hrung _ (Nested.mem_of_lookup hop)
    exact hleft ((hright hafter).plain rfl (isKeyword_of_isSymbol hsymbol))
  | ternary _ hquestion _ hbang _ hcondition hconsequent halternative =>
    exact hcondition ((hconsequent ((halternative hafter).plain hbang rfl)).plain hquestion rfl)
  | functionLiteral hkeyword _ _ hnames hbody => exact (hnames (hbody hafter)).plain hkeyword rfl
  | block hnewline hindent _ hclosing hbody =>
    exact ((hbody (hclosing.orderly hafter)).plain hindent rfl).plain hnewline rfl
  | innerBlock hindent _ hclosing hbody => exact (hbody (hclosing.orderly hafter)).plain hindent rfl
  | expression _ hend hvalue => exact hvalue (orderly_of_end hend hafter)
  -- Where the first word is a keyword, what follows it is quiet.
  | callStatement _ hderives _ hend hvalue | answer _ hderives hend hvalue =>
    exact (hvalue (orderly_of_end hend hafter)).keyword (hderives.quiet rfl)
  | assignment _ hderives hcolon _ _ hend htarget hvalue =>
    have hvalue := hvalue (orderly_of_end hend hafter)
    exact (htarget (hvalue.plain hcolon rfl)).keyword (hderives.quiet rfl)
  | declare _ hname _ hcolon _ hend htype hvalue =>
    have hvalue := hvalue (orderly_of_end hend hafter)
    exact ((htype (hvalue.plain hcolon rfl)).plain hname rfl).keyword quiet_cons_inner
  | function hkeyword hname _ _ hend hnames hbody =>
    have hbody := hbody (orderly_of_end hend hafter)
    exact ((hnames hbody).plain hname rfl).plain hkeyword rfl
  | answerNothing _ hend | leave _ hend => exact (hend.orderly hafter).keyword hend.quiet
  | loop _ hderives _ hcondition hbody =>
    exact (hcondition (hbody hafter)).keyword (hderives.quiet rfl)
  | conditional _ hderives _ _ hcondition hbody hrest
  | otherwiseBranch _ hderives _ _ hcondition hbody hrest =>
    exact (hcondition (hbody (hrest hafter))).keyword (hderives.quiet rfl)
  | otherwiseNothing => exact hafter
  | otherwiseBody _ hderives hbody => exact (hbody hafter).keyword (hderives.quiet trivial)

theorem DerivesProgram.orderly {program} (h : DerivesProgram before program after)
    (hafter : Orderly after) : Orderly before := by
  induction h with
  | none => exact hafter
  | further _ hstatement ih => exact ih (hstatement.orderly hafter)
  | newline _ ht ih | dedent _ ht ih => exact ih (hafter.plain ht rfl)

/-! ## Tokens and words -/

/-- Each word is a token, but a name that leads a statement or a branch may be spelled as a keyword,
or as a keyword and a name that were joined. -/
inductive Respelled : List Token → List Word → Prop
  | nil : Respelled [] []
  | same {t role rest words} (hrest : Respelled rest words) :
    Respelled (t :: rest) (⟨t, role⟩ :: words)
  | keyword {t k role rest words} (hrole : role.leads = true) (ht : t.kind = .identifier)
    (hk : k.word = t.lexeme) (hrest : Respelled rest words) :
    Respelled (t :: rest) (⟨{ t with kind := .keyword k }, role⟩ :: words)
  | split {t k joiner later role behind rest words} (hrole : role.leads = true)
    (hbehind : behind.leads = false) (ht : t.kind = .identifier)
    (hjoined : t.lexeme.toList = k.word.toList ++ joiner :: later)
    (hjoiner : Token.isJoiner joiner = true) (hrest : Respelled rest words) :
    Respelled (t :: rest) (⟨{ t with kind := .keyword k, lexeme := k.word }, role⟩ ::
      ⟨⟨.identifier, String.ofList later, none, t.position.right (k.word.length + 1)⟩, behind⟩ ::
      words)

/-- What is true of the names among the tokens is true of those among the words, if it is true of
what stands behind a joiner in a name. -/
theorem Respelled.forall_names {P : List Char → Prop} (h : Respelled tokens words)
    (hbehind : ∀ first joiner later, Token.isJoiner joiner = true → P (first ++ joiner :: later) →
      P later)
    (htokens : ∀ t ∈ tokens, t.kind = .identifier → P t.lexeme.toList) :
    ∀ w ∈ words, w.token.kind = .identifier → P w.token.lexeme.toList := by
  induction h with
  | nil => exact forall_mem_nil _
  | same _ ih =>
    obtain ⟨hfirst, hrest⟩ := forall_mem_cons.mp htokens
    exact forall_mem_cons.mpr ⟨hfirst, ih hrest⟩
  | keyword _ _ _ _ ih =>
    obtain ⟨-, hrest⟩ := forall_mem_cons.mp htokens
    exact forall_mem_cons.mpr ⟨fun hk => absurd hk (by simp), ih hrest⟩
  | split _ _ ht hjoined hjoiner _ ih =>
    obtain ⟨hfirst, hrest⟩ := forall_mem_cons.mp htokens
    have hname := hfirst ht
    rw [hjoined] at hname
    refine forall_mem_cons.mpr ⟨fun hk => absurd hk (by simp), ?_⟩
    refine forall_mem_cons.mpr ⟨fun _ => ?_, ih hrest⟩
    rw [String.toList_ofList]
    exact hbehind _ _ _ hjoiner hname

/-- Passing over line breaks inside of a line leaves words orderly behind their first. -/
theorem orderly_withoutSoft_tail {w} (h : Orderly (withoutSoft (w :: words))) :
    Orderly (withoutSoft words) := by
  by_cases hw : w.token.kind = .softNewline
  · rwa [withoutSoft_cons_soft hw] at h
  · rw [withoutSoft_cons hw] at h
    exact h.2

theorem quiet_of_orderly_withoutSoft {w} (h : Orderly (withoutSoft (w :: words)))
    (hw : isKeyword w.token.kind = true) : Quiet (withoutSoft words) := by
  have hsoft : w.token.kind ≠ .softNewline := fun hsoft => by rw [hsoft] at hw; cases hw
  rw [withoutSoft_cons hsoft] at h
  exact h.1 hw

/-- A name behind a keyword stays as it is. -/
theorem Respelled.behind_keyword {t rest} (h : Respelled (t :: rest) words)
    (ht : t.kind = .identifier) (hquiet : Quiet (withoutSoft words)) :
    ∃ behind words', behind.leads = false ∧ words = ⟨t, behind⟩ :: words' ∧
      Respelled rest words' := by
  have hhead : ∀ w words', words = w :: words' →
      w.token.kind = .identifier ∨ isKeyword w.token.kind = true → w.role.leads = false := by
    rintro w words' rfl hkind
    rw [withoutSoft_cons (by rintro hsoft; simp [hsoft, isKeyword] at hkind)] at hquiet
    by_contra hleads
    obtain ⟨hname, hkeyword⟩ := hquiet w rfl (by simpa using hleads)
    rcases hkind with hkind | hkind
    · exact hname hkind
    · rw [hkeyword] at hkind
      cases hkind
  cases h with
  | same hrest => exact ⟨_, _, hhead _ _ rfl (.inl ht), rfl, hrest⟩
  | keyword hrole | split hrole => rw [hhead _ _ rfl (.inr rfl)] at hrole; cases hrole

/-- **Words that are orderly are told apart once.** -/
theorem Splits.respelled (h : Splits tokens words)
    (horderly : Orderly (withoutSoft words)) : Respelled tokens words := by
  induction h with
  | nil => exact .nil
  | plain _ _ _ _ ih => exact .same (ih (orderly_withoutSoft_tail horderly))
  | @leading t first role more rest words hrole heof hfirst hrest ih =>
    have hlater := ih (orderly_withoutSoft_tail horderly)
    rcases Cursor.leadingWord_cases t with hsame | ⟨ht, k, hk, hkeyword⟩ |
      ⟨ht, k, word, joiner, later, hjoined, hjoiner, -, hk, hsplit⟩
    · rw [hsame] at hfirst
      cases hfirst
      exact .same hlater
    · rw [hkeyword] at hfirst
      cases hfirst
      exact .keyword hrole ht (Keyword.word_of_ofWord? hk) hlater
    · rw [hsplit] at hfirst
      cases hfirst
      -- The name that was split off stands behind its keyword, so it was not told apart again.
      obtain ⟨behind, words', hbehind, rfl, hrest'⟩ :=
        hlater.behind_keyword rfl (quiet_of_orderly_withoutSoft horderly rfl)
      obtain rfl : word = k.word.toList := by
        rw [Keyword.word_of_ofWord? hk, String.toList_ofList]
      rw [String.ofList_toList, String.length_toList]
      exact .split hrole hbehind ht hjoined hjoiner hrest'

/-- No word is an end of input. -/
theorem Respelled.kind_ne_eof (h : Respelled tokens words)
    (htokens : ∀ t ∈ tokens, t.kind ≠ .eof) : ∀ w ∈ words, w.token.kind ≠ .eof := by
  induction h with
  | nil => exact forall_mem_nil _
  | same _ ih =>
    obtain ⟨ht, hrest⟩ := forall_mem_cons.mp htokens
    exact forall_mem_cons.mpr ⟨ht, ih hrest⟩
  | keyword _ _ _ _ ih =>
    exact forall_mem_cons.mpr ⟨nofun, ih (forall_mem_cons.mp htokens).2⟩
  | split _ _ _ _ _ _ ih =>
    have hrest := ih (forall_mem_cons.mp htokens).2
    exact forall_mem_cons.mpr ⟨nofun, forall_mem_cons.mpr ⟨nofun, hrest⟩⟩

/-- **The names and literals of an accepted program are those of its tokens**, in their order.  Of
the tokens up to the end of input, only names that lead a statement or a branch are spelled anew, as
a keyword or as a keyword and what was joined to it. -/
theorem leaves_of_program? {tokens : List Token} {program : List Stmt}
    (h : (Parsed.ofTokens tokens).program? = some program) :
    ∃ words : List Word,
      (Parsed.ofTokens tokens).tokens = words.map (·.token) ++ [Cursor.finalOf tokens] ∧
      (∀ w ∈ words, w.token.kind ≠ .eof) ∧
      Respelled (tokens.takeWhile (·.kind ≠ .eof)) words ∧
      DerivesProgram (withoutSoft words) program [] ∧
      leavesOf (layoutBody program) = words.filterMap Word.leaf? := by
  obtain ⟨words, hsplits, htokens, hderives⟩ := exists_derivesProgram h
  have hrespelled := hsplits.respelled (hderives.orderly trivial)
  have hfinal : ∀ t ∈ tokens.takeWhile (·.kind ≠ .eof), t.kind ≠ .eof := fun t ht => by
    simpa using mem_takeWhile_imp ht
  exact ⟨words, htokens, hrespelled.kind_ne_eof hfinal, hrespelled, hderives,
    leaves_of_derivesProgram hderives⟩

/-- Keywords that stand alone and keywords that are joined to a name, and an optional type. -/
def joinedSource : String :=
  "var a (text?) : \x7bb: 1\x7d\nif a\n  let a.b : fn (c): c\nelse\n  return null\n"

theorem leaves_joinedSource : ∃ program,
    (Parsed.ofTokens (Token.scan joinedSource.toList).tokens).program? = some program ∧
    ∃ words : List Word,
      (Parsed.ofTokens (Token.scan joinedSource.toList).tokens).tokens = words.map (·.token) ++
        [Cursor.finalOf (Token.scan joinedSource.toList).tokens] ∧
      (∀ w ∈ words, w.token.kind ≠ .eof) ∧
      Respelled ((Token.scan joinedSource.toList).tokens.takeWhile (·.kind ≠ .eof)) words ∧
      DerivesProgram (withoutSoft words) program [] ∧
      leavesOf (layoutBody program) = words.filterMap Word.leaf? := by
  have hparses : (Parsed.ofTokens (Token.scan joinedSource.toList).tokens).program?.isSome := by
    decide +kernel
  obtain ⟨program, hprogram⟩ := Option.isSome_iff_exists.mp hparses
  have hleaves := leaves_of_program? hprogram
  exact ⟨program, hprogram, hleaves⟩

end Offside
