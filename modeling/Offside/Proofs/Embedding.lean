import Offside.Proofs.Tracking

/-!
# Proofs/Embedding — the grammar in a larger program

Every parser of the grammar does the same in a larger program (`Nested.follows_nested`), by the
rules of `Proofs/Tracking`.
-/

namespace Offside

open List Offside.Parser Token Cursor

variable {w : Whole} {s : State}

/-! ## Types -/

namespace TypeExpr

variable {inner inner' : Parser TypeExpr}

/-- Types are read alike. -/
def Follows (w : Whole) (inner inner' : Parser TypeExpr) : Prop :=
  ∀ m s s', Tracks w .sealed m .inner blind inner inner' s s'

variable (h : Follows w inner inner') {m : Trail} {s' : State}
include h

theorem tracks_readNamed (hkind : s.cursor.kind = .identifier) :
    Tracks w .within m .inner blind (readNamed inner) (readNamed inner') s s' := by
  refine .bind rfl (.takeKind hkind rfl) fun token token' t t' _ htoken => ?_
  rw [lexeme_of_bare_eq htoken]
  refine .ite (fun _ => .pure rfl rfl) fun _ => .accept nofun rfl rfl
    (fun t t' => ?_) (.pure rfl rfl)
  exact .bind rfl (.commaSeparated (fun m _ _ s s' _ => (h m s s').within) nofun)
    fun _ _ t t' _ _ => .seq rfl (.expect rfl nofun) <| .pure rfl rfl

theorem tracks_readField : Tracks w .within m .inner blind (readField inner) (readField inner')
      s s' :=
  .seq rfl (.expect rfl nofun) <| .seq rfl (.expect rfl nofun) <|
    .seq rfl (h ..) <| .pure rfl rfl

/-- What follows the parameters of a function type. -/
theorem tracks_behindParameters (paren paren' : Token) {parameters parameters' : List TypeExpr}
    (hparameters : parameters'.map blind = parameters.map fun _ => ()) :
    Tracks w .within m .inner blind (do
      let _ ← expect (.closing .round) .expectedParameterTypesEnd
      if ← accept .arrow then return .function paren parameters (← inner)
      match parameters with
      | [only] => return only
      | _ => refuse .expectedResultType) (do
      let _ ← expect (.closing .round) .expectedParameterTypesEnd
      if ← accept .arrow then return .function paren' parameters' (← inner')
      match parameters' with
      | [only] => return only
      | _ => refuse .expectedResultType) s s' := by
  refine .bind rfl (.expect rfl nofun) fun _ _ t t' _ _ => .accept nofun rfl rfl (fun t t' => ?_) ?_
  · exact .seq rfl (h _ t t') <| .pure rfl rfl
  · match parameters, parameters', hparameters with
    | [], [], _ => exact .refuse nofun
    | [_], [_], _ => exact .pure rfl rfl
    | _ :: _ :: _, _ :: _ :: _, _ => exact .refuse nofun

theorem tracks_readFunctionOrGroup (hkind : s.cursor.kind = .opening .round) :
    Tracks w .within m .inner blind (readFunctionOrGroup inner)
      (readFunctionOrGroup inner') s s' := by
  refine .bind rfl (.takeKind hkind rfl) fun paren paren' t t' _ _ =>
    .at? nofun (fun _ => ?_) fun _ => ?_
  · exact .given (tracks_behindParameters h paren paren' rfl)
  · exact .bind rfl (.commaSeparated (fun m _ _ s s' _ => (h m s s').within) nofun)
      fun _ _ t t' _ hparameters => tracks_behindParameters h paren paren' hparameters

theorem tracks_readBase : Tracks w .within m .inner blind (readBase inner) (readBase inner')
      s s' := by
  unfold readBase
  refine .kind nofun ?_
  split
  · next hkind => exact tracks_readNamed h hkind
  · next hkind =>
    exact .seq rfl (.takeKind hkind rfl) <|
      .seq rfl (h ..) <|
      .seq rfl (.expect rfl nofun) <| .pure rfl rfl
  · next hkind =>
    exact .bind rfl (.takeKind hkind rfl) fun _ _ t t' _ _ =>
      .seq rfl (.elements (fun m _ _ s s' _ => tracks_readField h) nofun) <|
      .seq rfl (.expect rfl nofun) <| .pure rfl rfl
  · next hkind => exact tracks_readFunctionOrGroup h hkind
  · exact .refuse nofun

omit h

theorem follows_readTo : ∀ depth depth' : Nat, Follows w (readTo depth) (readTo depth')
  | 0, _ => fun _ _ _ => .endless
  | depth + 1, depth' => fun m s s' => by
    have hnext (depth' : Nat) : Tracks w .sealed m .inner blind
        (readTo (depth + 1)) (readTo (depth' + 1)) s s' := by
      refine .sealed (.bind rfl (tracks_readBase (follows_readTo depth depth'))
        fun type type' t t' _ _ => .iterate (fun _ _ s s' _ => ?_) rfl)
      exact .accept nofun rfl rfl (fun _ _ => .pure rfl rfl) (.pure rfl rfl)
    cases depth' with
    | zero => exact (hnext 0).endless_right
    | succ depth' => exact hnext depth'

theorem tracks_read : Tracks w .sealed m .inner blind read read s s' :=
  have h := follows_readTo (s.cursor.weight + 1) (s'.cursor.weight + 1) m s s'
  ⟨h.ok, h.refused⟩

end TypeExpr

/-! ## Expressions -/

/-- What an expression can be used for: whether it is a call, and whether it can be assigned to. -/
def Expr.form (value : Expr) : Bool × Bool :=
  (Nested.isCall value, (Nested.assignment? value value).isSome)

namespace Nested

variable {n n' : Nested} {m : Trail} {s' : State}

/-- What nests is read alike. -/
structure Follows (w : Whole) (n n' : Nested) :
    Prop where
  expression : ∀ m s s', Tracks w .sealed m .solid blind n.expression n'.expression s s'
  ternary : ∀ m s s', Tracks w .sealed m .inner blind n.ternary n'.ternary s s'
  statements : ∀ inLoop s s', Tracks w .closing .agreed .agreed blind
    (n.statements inLoop) (n'.statements inLoop) s s'

theorem tracks_parameters : Tracks w .sealed m .inner blind parameters parameters s s' := by
  refine .seq rfl (.expect rfl nofun) <| .sealed ?_
  refine .accept nofun rfl rfl (fun _ _ => .pure rfl rfl) ?_
  refine .seq rfl (.commaSeparated (l := .inner) (v := bare)
    (fun m names names' s s' hnames => ?_) nofun) <|
    .seq rfl (.expect rfl nofun) <| .pure rfl rfl
  refine .bind rfl (.expect rfl nofun) fun name name' t t' _ hname => ?_
  rw [any_lexeme_eq hnames hname]
  exact .ite (fun _ => .bind_of rfl id (.report nofun) fun _ _ _ _ _ _ => .pure rfl hname)
    fun _ => .pure rfl hname

variable (h : Follows w n n') (inLoop : Bool)
include h

theorem tracks_field {fields fields' : List Field}
    (hfields : fields'.map (·.key.bare) = fields.map (·.key.bare)) :
    Tracks w .within m .solid (·.key.bare) (n.field fields) (n'.field fields') s s' := by
  have hvalue {key key' : Token} (hkey : key'.bare = key.bare) {t t' : State} :
      Tracks w .within .inner .solid (·.key.bare) (do
        let _ ← expect .colon .expectedFieldValue
        return Field.mk key (← n.expression)) (do
        let _ ← expect .colon .expectedFieldValue
        return Field.mk key' (← n'.expression)) t t' :=
    .seq rfl (.expect rfl nofun) <|
    .seq rfl (h.expression ..) <| .pure rfl hkey
  refine .bind rfl (.expect rfl nofun) fun key key' t t' _ hkey => ?_
  rw [any_lexeme_eq hfields hkey]
  exact .ite (fun _ => .bind_of rfl id (.report nofun) fun _ _ _ _ _ _ => hvalue hkey)
    fun _ => hvalue hkey

theorem tracks_primary : Tracks w .sealed m .inner Expr.form n.primary n'.primary s s' := by
  have hliteral (hkind : s.cursor.kind ∉ breakKinds) (heof : s.cursor.kind ≠ .eof) :
      Tracks w .within m .inner Expr.form (do
        let token ← take
        return Expr.literal token (token.literal.getD .null)) (do
        let token ← take
        return Expr.literal token (token.literal.getD .null)) s s' :=
    .seq rfl (.take hkind heof) <| .pure rfl rfl
  refine .sealed ?_
  unfold primary
  refine .kind nofun ?_
  split
  iterate 5 · next hkind => exact hliteral (by rw [hkind]; decide) (by rw [hkind]; nofun)
  · next hkind =>
    exact .seq rfl (.takeKind hkind rfl) <| .pure rfl rfl
  · next hkind =>
    exact .seq rfl (.takeKind hkind rfl) <|
      .seq rfl (h.expression ..) <|
      .seq rfl (.expect rfl nofun) <| .pure rfl rfl
  · next hkind =>
    exact .seq rfl (.takeKind hkind rfl) <|
      .seq rfl (.elements (fun m _ _ s s' _ => (h.expression m s s').within) nofun) <|
      .seq rfl (.expect rfl nofun) <| .pure rfl rfl
  · next hkind =>
    exact .seq rfl (.takeKind hkind rfl) <|
      .seq rfl (.elements (fun _ _ _ _ _ hfields => tracks_field h hfields) nofun) <|
      .seq rfl (.expect rfl nofun) <| .pure rfl rfl
  · exact .refuse nofun
  · exact .refuse nofun

theorem tracks_suffix? (target target' : Expr) :
    Tracks w .within m m (Option.map Expr.form) (n.suffix? target) (n'.suffix? target') s s' := by
  have hcall (paren paren' : Token) {arguments arguments' : List Expr} {m : Trail}
      {t t' : State} :
      Tracks w .within m .inner (Option.map Expr.form) (do
        let _ ← expect (.closing .round) .expectedArgumentListEnd
        return some (Expr.call paren target arguments)) (do
        let _ ← expect (.closing .round) .expectedArgumentListEnd
        return some (Expr.call paren' target' arguments')) t t' :=
    .seq rfl (.expect rfl nofun) <| .pure rfl rfl
  unfold suffix?
  refine .kind nofun ?_
  split
  · next hkind =>
    refine .lower (.bind rfl (.takeKind hkind rfl) fun paren paren' _ _ _ _ =>
      .at? nofun (fun _ => ?_) fun _ => ?_) (Trail.rank_le_inner m)
    · exact .given (hcall paren paren')
    · exact .seq rfl (.commaSeparated (fun m _ _ s s' _ => (h.expression m s s').within) nofun) <|
        hcall paren paren'
  · next hkind =>
    exact .lower (.seq rfl (.takeKind hkind rfl) <|
      .seq rfl (.expect rfl nofun) <| .pure rfl rfl)
      (Trail.rank_le_inner m)
  · next hkind =>
    exact .lower (.seq rfl (.takeKind hkind rfl) <|
      .seq rfl (h.expression ..) <| .seq rfl (.expect rfl nofun) <| .pure rfl rfl)
      (Trail.rank_le_inner m)
  · exact .pure rfl rfl

theorem tracks_suffixes {target target'} (htarget : target'.form = target.form) :
    Tracks w .within m m Expr.form (iterate n.suffix? target) (iterate n'.suffix? target') s s' :=
  .iterate (fun target target' _ _ _ => tracks_suffix? h target target') htarget

theorem tracks_chain : Tracks w .sealed m .inner Expr.form n.chain n'.chain s s' :=
  .sealed (.bind rfl (tracks_primary h) fun _ _ _ _ _ hhead => tracks_suffixes h hhead)

theorem tracks_unary : Tracks w .sealed m .inner blind n.unary n'.unary s s' := by
  refine .sealed
    (.bind_of (v := fun _ => ()) rfl id (.iterate (fun _ _ s s' _ => .kind nofun ?_) rfl)
    fun _ _ _ _ _ _ => .seq rfl (tracks_chain h) <| .pure rfl rfl)
  cases hop : unaryOp? s.cursor.kind with
  | some op =>
    have hkind : s.cursor.kind ∉ breakKinds ∧ s.cursor.kind ≠ .eof := by
      rcases unaryOp?_cases hop with hkind | hkind
      · rw [hkind]
        decide
      · rw [hkind]
        decide
    exact .lower (.seq rfl (.take hkind.1 hkind.2) <| .pure rfl rfl) (Trail.rank_le_inner m)
  | none => exact .pure rfl rfl

omit h

/-- No binary operator ends a line or stands around a block. -/
theorem lookup_breakKinds : ∀ rung ∈ ladder, ∀ k ∈ .eof :: breakKinds,
    rung.lookup k = none := by decide

theorem tracks_binary {operand operand'}
    (h : ∀ m s s', Tracks w .sealed m .inner blind operand operand' s s') :
    ∀ rungs : List Rung,
      (∀ rung ∈ rungs, ∀ k ∈ .eof :: breakKinds, rung.lookup k = none) → ∀ m s s',
      Tracks w .sealed m .inner blind (binary operand rungs) (binary operand' rungs) s s'
  | [], _ => h
  | rung :: tighter, hrungs => fun m s s' => by
    have ih := tracks_binary h tighter fun rung hmem => hrungs rung (mem_cons_of_mem _ hmem)
    refine .sealed (.seq rfl (ih m s s') <|
      .iterate (fun _ _ s s' _ => .kind nofun ?_) rfl)
    cases hop : rung.lookup s.cursor.kind with
    | some op =>
      have hkind : s.cursor.kind ∉ .eof :: breakKinds := fun hmem => by
        rw [hrungs rung mem_cons_self _ hmem] at hop
        cases hop
      rw [mem_cons, not_or] at hkind
      exact .seq rfl (.take hkind.2 hkind.1) <|
        .seq rfl (ih ..) <| .pure rfl rfl
    | none => exact .pure rfl rfl

include h in
theorem tracks_ternaryOf : Tracks w .sealed m .inner blind n.ternaryOf n'.ternaryOf s s' := by
  refine .sealed (.bind rfl
    (tracks_binary (fun _ _ _ => tracks_unary h) ladder lookup_breakKinds m s s')
      fun _ _ _ _ _ _ => .at? nofun (fun hkind => ?_) fun _ => .pure rfl rfl)
  exact .seq rfl (.takeKind hkind rfl) <|
    .seq rfl (h.ternary ..) <|
    .seq rfl (.expect rfl nofun) <|
    .seq rfl (h.ternary ..) <| .pure rfl rfl

/-! ## Blocks -/

theorem expect_of_kind {k} (fault : SyntaxFault) (h : s.cursor.kind = k) :
    expect k fault s = .ok s.cursor.current ⟨s.cursor.advance, s.reports⟩ := by
  rw [expect, at?_of_kind h]
  rfl

theorem expect_of_kind_ne {k} (fault : SyntaxFault) (h : s.cursor.kind ≠ k) :
    expect k fault s = .error (.refused ⟨s.cursor.current, fault⟩) s := by
  rw [expect, at?_of_kind_ne h]
  rfl

include h in
/-- A block is read from its first statement on. -/
theorem tracks_indented (hkind : s.cursor.kind = .indent) : Tracks w .sealed m .solid blind
      (take >>= fun _ => n.statements inLoop)
      (take >>= fun _ => n'.statements inLoop) s s' := by
  have hrest (hs : Stands w m s) : s.cursor.rest ≠ [] :=
    hs.rest_ne_nil (by rw [hkind]; nofun)
  have hline : ¬ Line s.cursor.rest := fun hline => hline.kind_ne_block.1 hkind
  have hinner := h.statements inLoop ⟨s.cursor.advance, s.reports⟩ ⟨s'.cursor.advance, s'.reports⟩
  -- As many blocks are open inside as outside, and one more.
  have hopen (hs : Stands w m s) (hne : w.behind ≠ []) :
      ∃ depth, Closes (depth + 1) s.cursor.advance.rest := by
    obtain ⟨depth, hcloses⟩ := (hs.ended hne).closes
    exact ⟨depth, hcloses.advance_indent (hrest hs) hkind⟩
  refine ⟨fun hr hs => ?_, fun hr hs => ?_⟩
  · obtain ⟨h₁, h⟩ := hinner.ok hr (hs.advance (hrest hs))
    refine ⟨⟨⟨h₁.stands.start, h₁.stands.settled, h₁.stands.ended, fun hne hclean => ?_⟩,
      fun hnil => absurd hnil (hrest hs), h₁.reports, fun hclean depth hcloses => ?_,
      fun h => absurd h hline⟩, fun hlike hreads => ?_⟩
    · obtain ⟨depth, hdepth⟩ := hopen hs hne
      exact (h₁.keeps hclean depth hdepth).2
    · exact (h₁.keeps hclean depth (hcloses.advance_indent (hrest hs) hkind)).1
    · refine (h (hlike.advance hs (hrest hs)) ?_).imp id fun _ hlike => hlike.lower nofun
      rcases hreads with hshown | hclean | hends
      · exact .inl hshown
      · by_cases hne : w.behind = []
        · exact .inl (.inr hne)
        · exact .inr (.inl ⟨hclean, hopen hs hne⟩)
      · cases hends.1
  · obtain ⟨h₁, h⟩ := hinner.refused hr (hs.advance (hrest hs))
    refine ⟨⟨h₁.stands, fun hnil => absurd hnil (hrest hs), h₁.reports, fun _ h => absurd h hline⟩,
      fun hlike hfails => (h (hlike.advance hs (hrest hs)) ?_).lower nofun⟩
    exact hfails.imp_right fun h => absurd h.2.1 hline

theorem block_of_kind_ne (h : s.cursor.kind ≠ .newline) : n.block inLoop s =
      .error (.refused ⟨s.cursor.current, .expectedLineBreakBeforeBlock⟩) s :=
  bind_of_error (expect_of_kind_ne _ h)

theorem block_of_newline (h : s.cursor.kind = .newline) :
    n.block inLoop s = (expect .indent .expectedBlock >>= fun _ => n.statements inLoop)
      ⟨s.cursor.advance, s.reports⟩ :=
  bind_of_ok (expect_of_kind _ h)

theorem block_of_indent (h : s.cursor.kind = .newline) (hindent : s.cursor.advance.kind = .indent) :
    n.block inLoop s = (take >>= fun _ => n.statements inLoop) ⟨s.cursor.advance, s.reports⟩ := by
  rw [block_of_newline inLoop h, bind_of_ok (expect_of_kind .expectedBlock hindent)]
  rfl

/-- A block that is missed is missed behind the line break. -/
theorem block_of_indent_ne (h : s.cursor.kind = .newline)
    (hindent : s.cursor.advance.kind ≠ .indent) :
    n.block inLoop s = .error (.refused ⟨s.cursor.advance.current, .expectedBlock⟩)
      ⟨s.cursor.advance, s.reports⟩ := by
  rw [block_of_newline inLoop h, bind_of_error (expect_of_kind_ne .expectedBlock hindent)]

/-- Where no line break comes, no block is read. -/
theorem tracks_block_of_kind_ne (hkind : s.cursor.kind ≠ .newline) :
    Tracks w .sealed m .solid blind (n.block inLoop) (n'.block inLoop) s s' := by
  refine ⟨fun hr hs => ?_, fun hr hs => ?_⟩ <;> cases (block_of_kind_ne inLoop hkind).symm.trans hr
  have h₁ : Halts w .sealed s .expectedLineBreakBeforeBlock s := .here hs nofun
  refine ⟨h₁, fun hlike hfails => ?_⟩
  have hkind' := hlike.cursor.kind hs.settled.final (hfails.begins h₁)
  rw [block_of_kind_ne inLoop (hkind' ▸ hkind)]
  exact ⟨rfl, hlike⟩

/-- **A block that is missed is missed in the larger program too**, also behind the line break of a
single line, unless a block follows there. -/
theorem tracks_block_of_indent_ne (hkind : s.cursor.kind = .newline)
    (hindent : s.cursor.advance.kind ≠ .indent) :
    Tracks w .sealed m .solid blind (n.block inLoop) (n'.block inLoop) s s' := by
  have heof : s.cursor.kind ≠ .eof := by
    rw [hkind]
    nofun
  refine ⟨fun hr hs => ?_, fun hr hs => ?_⟩ <;>
    cases (block_of_indent_ne inLoop hkind hindent).symm.trans hr
  have hrest := hs.rest_ne_nil heof
  refine ⟨⟨(hs.advance hrest).lower (Nat.zero_le _), fun hnil => absurd hnil hrest, suffix_refl _,
    fun _ hline => ⟨.refl s, .inr ⟨hline.advance_newline hkind, rfl⟩⟩⟩, fun hlike hfails => ?_⟩
  have hnext := hlike.advance (l := m) hs hrest
  have hkind' := (hlike.cursor.kind hs.settled.final (.inl hrest)).trans hkind
  have hindent' : s'.cursor.advance.kind ≠ .indent := by
    rcases hfails with hshown | ⟨-, hline, hhead⟩
    · rwa [hnext.cursor.kind hs.settled.advance.final hshown]
    · rcases hnext.cursor.kind_behind (hline.advance_newline hkind) with heof | ⟨u, hu, heq⟩
      · rw [heof]
        nofun
      · rw [heq]
        exact hhead u hu
  rw [block_of_indent_ne inLoop hkind' hindent']
  exact ⟨rfl, hnext⟩

include h

theorem tracks_block : Tracks w .sealed m .solid blind (n.block inLoop) (n'.block inLoop) s s' := by
  by_cases hkind : s.cursor.kind = .newline
  · by_cases hindent : s.cursor.advance.kind = .indent
    · have hblock : Tracks w .sealed .agreed .solid blind (take >>= fun _ => n.statements inLoop)
          (take >>= fun _ => n'.statements inLoop) ⟨s.cursor.advance, s.reports⟩
          ⟨s'.cursor.advance, s'.reports⟩ := tracks_indented h inLoop hindent
      have hrest (hs : Stands w m s) : s.cursor.rest ≠ [] := hs.rest_ne_nil (by rw [hkind]; nofun)
      have hline (hs : Stands w m s) : ¬ Line s.cursor.rest := fun hline =>
        (hs.advance (hrest hs)).rest_ne_nil (by rw [hindent]; nofun) (hline.advance_newline hkind)
      have hsame (hs : Stands w m s) (hlike : Like w m s s') :
          n'.block inLoop s' = (take >>= fun _ => n'.statements inLoop)
            ⟨s'.cursor.advance, s'.reports⟩ := by
        have hnext := hlike.advance (l := .agreed) hs (hrest hs)
        have hrest₁ := (hs.advance (hrest hs)).rest_ne_nil (by rw [hindent]; nofun)
        refine block_of_indent inLoop ?_ ?_
        · exact (hlike.cursor.kind hs.settled.final (.inl (hrest hs))).trans hkind
        · exact (hnext.cursor.kind hs.settled.advance.final (.inl hrest₁)).trans hindent
      refine ⟨fun hr hs => ?_, fun hr hs => ?_⟩ <;> rw [block_of_indent inLoop hkind hindent] at hr
      · obtain ⟨h₁, h⟩ := hblock.ok hr (hs.advance (hrest hs))
        refine ⟨⟨h₁.stands, fun hnil => absurd hnil (hrest hs), h₁.reports,
          fun hclean depth hcloses => h₁.keeps hclean depth
            (hcloses.advance_of_kind (hrest hs) (hkind ▸ nofun) (hkind ▸ nofun)),
          fun h => absurd h (hline hs)⟩, fun hlike hreads => ?_⟩
        rw [hsame hs hlike]
        exact h (hlike.advance hs (hrest hs)) (hreads.imp_right (.imp_right fun h => by cases h.1))
      · obtain ⟨h₁, h⟩ := hblock.refused hr (hs.advance (hrest hs))
        refine ⟨⟨h₁.stands, fun hnil => absurd hnil (hrest hs), h₁.reports,
          fun _ h => absurd h (hline hs)⟩, fun hlike hfails => ?_⟩
        rw [hsame hs hlike]
        refine (h (hlike.advance hs (hrest hs)) (hfails.imp_right fun h => ?_)).lower nofun
        exact absurd h.2.1 (hline hs)
    · exact tracks_block_of_indent_ne inLoop hkind hindent
  · exact tracks_block_of_kind_ne inLoop hkind

/-! ## Functions -/

theorem tracks_functionBody : Tracks w .sealed .inner .solid blind n.functionBody n'.functionBody
      s s' := by
  refine .at? (fun _ => Stands.shown) (fun hkind => ?_) fun _ => tracks_block h false
  exact .seq rfl (.takeKind hkind rfl) <|
    .seq rfl (h.expression ..) <| .pure rfl rfl

theorem tracks_functionLiteral (hkind : s.cursor.kind = .fn) :
    Tracks w .sealed m .solid blind n.functionLiteral n'.functionLiteral s s' := by
  refine .seq rfl (.takeKind hkind rfl) <|
    .at? (fun _ => Stands.shown) (fun _ => ?_) fun _ => ?_
  · have hrefuse {t t' : State} : Tracks w .sealed .inner .inner blind
        (refuse (α := Unit) .namedFunctionLiteral) (refuse .namedFunctionLiteral)
        t t' := .refuse nofun
    exact .bind rfl hrefuse fun _ _ _ _ hr => by cases hr
  · exact .seq rfl tracks_parameters <|
      .seq rfl (tracks_functionBody h) <| .pure rfl rfl

omit h

/-! ## Any expression -/

theorem binary_of_refused {operand refusal} (h : operand s = .error (.refused refusal) s) :
    ∀ rungs : List Rung, binary operand rungs s = .error (.refused refusal) s
  | [] => h
  | _ :: tighter => bind_of_error (binary_of_refused h tighter)

/-- At the end of the tokens there is no expression. -/
theorem expressionOf_of_eof (h : s.cursor.kind = .eof) :
    n.expressionOf s = .error (.refused ⟨s.cursor.current, .expectedExpression⟩) s := by
  have hprimary : n.primary s = .error (.refused ⟨s.cursor.current, .expectedExpression⟩) s := by
    rw [primary, bind_of_ok (p := kind) rfl, h]
    rfl
  have hunary : n.unary s = .error (.refused ⟨s.cursor.current, .expectedExpression⟩) s := by
    refine (bind_of_ok (a := []) (t := s) ?_).trans (bind_of_error ?_)
    · refine (bind_of_ok (a := none) (t := s) ?_).trans rfl
      refine (bind_of_ok (p := kind) rfl).trans ?_
      rw [h]
      rfl
    · exact bind_of_error hprimary
  rw [expressionOf, at?_of_kind_ne (h ▸ nofun)]
  exact bind_of_error (binary_of_refused hunary ladder)

include h in
theorem tracks_expressionOf :
    Tracks w .sealed m .solid blind n.expressionOf n'.expressionOf s s' := by
  by_cases hshown : Shown w s
  · exact .at? (fun _ _ => hshown) (fun hkind => tracks_functionLiteral h hkind)
      fun _ => (tracks_ternaryOf h).lower (by decide)
  · have hnil : s.cursor.rest = [] := not_not.mp fun hrest => hshown (.inl hrest)
    exact .of_refused hshown
      (fun hs => expressionOf_of_eof (hs.settled.rest_eq_nil_iff.mp hnil)) nofun

/-! ## Statements -/

theorem endStatement_of_newline (h : s.cursor.kind = .newline) :
    endStatement s = .ok () ⟨s.cursor.advance, s.reports⟩ := by
  rw [endStatement, bind_of_ok (p := kind) rfl, h]
  rfl

/-- A statement ends before the end of its block, and behind a block that it ended with. -/
theorem endStatement_of_end (hnewline : s.cursor.kind ≠ .newline)
    (h : s.cursor.kind = .dedent ∨ s.cursor.kind = .eof ∨
      s.cursor.previousKind? = some .dedent) : endStatement s = .ok () s := by
  rw [endStatement, bind_of_ok (p := kind) rfl]
  generalize s.cursor.kind = k at hnewline h ⊢
  split
  · exact absurd rfl hnewline
  · rfl
  · rfl
  · next hdedent heof =>
    have hprevious := (h.resolve_left hdedent).resolve_left heof
    exact congrFun (if_pos hprevious) s

theorem endStatement_of_no_end (hnewline : s.cursor.kind ≠ .newline)
    (h : ¬ (s.cursor.kind = .dedent ∨ s.cursor.kind = .eof ∨
      s.cursor.previousKind? = some .dedent)) :
    endStatement s = .error (.refused ⟨s.cursor.current, .expectedStatementEnd⟩) s := by
  rw [not_or, not_or] at h
  rw [endStatement, bind_of_ok (p := kind) rfl]
  generalize s.cursor.kind = k at hnewline h ⊢
  split
  · exact absurd rfl hnewline
  · exact absurd rfl h.1
  · exact absurd rfl h.2.1
  · exact congrFun (if_neg h.2.2) s

/-- A statement ends alike, also at the end of the tokens: there it has just left a block. -/
theorem tracks_endStatement :
    Tracks w .whole .solid .agreed blind endStatement endStatement s s' := by
  by_cases hnewline : s.cursor.kind = .newline
  · have heof : s.cursor.kind ≠ .eof := by
      rw [hnewline]
      nofun
    refine ⟨fun hr hs => ?_, fun hr hs => ?_⟩ <;>
      cases (endStatement_of_newline hnewline).symm.trans hr
    have hrest := hs.rest_ne_nil heof
    refine ⟨⟨hs.advance hrest, fun hnil => absurd hnil hrest, suffix_refl _,
      fun _ _ h => h.advance_of_kind hrest (hnewline ▸ nofun) (hnewline ▸ nofun),
      fun hline => ⟨.inr (hline.advance_newline hnewline), .refl s⟩⟩, fun hlike _ => ?_⟩
    have hnewline' := (hlike.cursor.kind hs.settled.final (.inl hrest)).trans hnewline
    rw [endStatement_of_newline hnewline']
    exact ⟨rfl, hlike.advance hs hrest⟩
  · by_cases hend : s.cursor.kind = .dedent ∨ s.cursor.kind = .eof ∨
      s.cursor.previousKind? = some .dedent
    · refine ⟨fun hr hs => ?_, fun hr hs => ?_⟩ <;>
        cases (endStatement_of_end hnewline hend).symm.trans hr
      refine ⟨⟨hs.lower (by decide), id, suffix_refl _, fun _ _ => id,
        fun hline => ⟨.inl hline, .refl s⟩⟩, fun hlike hreads => ?_⟩
      have hagrees : _ ↔ _ := hlike.agrees nofun
      suffices hend' : s'.cursor.kind ≠ .newline ∧ (s'.cursor.kind = .dedent ∨
          s'.cursor.kind = .eof ∨ s'.cursor.previousKind? = some .dedent) by
        rw [endStatement_of_end hend'.1 hend'.2]
        exact ⟨rfl, hlike.lower nofun⟩
      by_cases hshown : Shown w s
      · rw [hlike.cursor.kind hs.settled.final hshown, hagrees]
        exact ⟨hnewline, hend⟩
      · -- No token is left, so the statement ended with a block.
        have hnil : s.cursor.rest = [] := not_not.mp fun hrest => hshown (.inl hrest)
        have hclean : s.reports = [] := by
          rcases hreads with h | hclean | ⟨-, hline⟩
          · exact absurd h hshown
          · exact hclean
          · exact absurd hnil hline.ne_nil
        refine ⟨?_, .inr (.inr (hagrees.mpr (hs.trail (hshown ∘ .inr) hclean hnil)))⟩
        rcases hlike.cursor.kind_behind hnil with heof | ⟨u, hu, heq⟩
        · rw [heof]
          nofun
        · rw [heq]
          exact (hs.start.head u hu).1
    · have heof : s.cursor.kind ≠ .eof := fun heof => hend (.inr (.inl heof))
      refine ⟨fun hr hs => ?_, fun hr hs => ?_⟩ <;>
        cases (endStatement_of_no_end hnewline hend).symm.trans hr
      refine ⟨.here hs nofun, fun hlike _ => ?_⟩
      have hkind' := hlike.cursor.kind hs.settled.final (.inl (hs.rest_ne_nil heof))
      have hagrees : _ ↔ _ := hlike.agrees nofun
      rw [endStatement_of_no_end (hkind' ▸ hnewline) (by rwa [hkind', hagrees])]
      exact ⟨rfl, hlike⟩

/-- The end of a statement, and the statement. -/
theorem tracks_end {stmt stmt' : Stmt} : Tracks w .whole .solid .agreed blind (do
      endStatement
      return stmt) (do
      endStatement
      return stmt') s s' :=
  tracks_endStatement.map fun _ _ _ => rfl

/-- The same behind a token. -/
theorem tracks_endInner {stmt stmt' : Stmt} : Tracks w .whole .inner .agreed blind (do
      endStatement
      return stmt) (do
      endStatement
      return stmt') s s' :=
  tracks_end.raise (by decide) nofun

include h in
theorem tracks_declaration {k} (mutable : Bool) (hkind : s.cursor.kind = .keyword k) :
    Tracks w .whole m .agreed blind (n.declaration mutable) (n'.declaration mutable) s s' := by
  have hvalue {name name' : Token} {type type' : Option TypeExpr} {t t' : State} :
      Tracks w .whole .inner .agreed blind (do
        let _ ← expect .colon .expectedDeclaredValue
        let value ← n.expression
        endStatement
        return Stmt.declare mutable name type value) (do
        let _ ← expect .colon .expectedDeclaredValue
        let value ← n'.expression
        endStatement
        return Stmt.declare mutable name' type' value) t t' :=
    .seq rfl (.expect rfl nofun) <|
    .seq rfl (h.expression ..) <| tracks_end
  refine .bind rfl (.takeKind hkind rfl) fun _ _ _ _ _ hkeyword => ?_
  rw [lexeme_of_bare_eq hkeyword]
  refine .seq rfl (.expect rfl nofun) <|
    .accept (fun _ => Stands.shown) rfl rfl (fun _ _ => ?_) (.given hvalue)
  exact .seq rfl TypeExpr.tracks_read <|
    .seq rfl (.expect rfl nofun) <| .given hvalue

@[simp] theorem isSome_assignment? (target value : Expr) :
    (assignment? target value).isSome = target.form.2 := by
  cases target <;> rfl

include h

variable {k : Keyword} (hkind : s.cursor.kind = .keyword k)
include hkind

theorem tracks_assignment : Tracks w .whole m .agreed blind n.assignment n'.assignment s s' := by
  refine .seq rfl (.takeKind hkind rfl) <|
    .bind rfl (tracks_chain h) fun target target' _ _ _ htarget =>
    .seq rfl (.expect rfl nofun) <|
    .bind rfl (h.expression ..) fun value value' _ _ _ _ => ?_
  have hsame : (assignment? target' value').isSome = (assignment? target value).isSome := by
    simp [htarget]
  match hassigned : assignment? target value, hassigned' : assignment? target' value' with
  | none, none => exact .refuseAt nofun
  | some _, some _ => exact tracks_end
  | none, some _ => rw [hassigned, hassigned'] at hsame; cases hsame
  | some _, none => rw [hassigned, hassigned'] at hsame; cases hsame

theorem tracks_callStatement :
    Tracks w .whole m .agreed blind n.callStatement n'.callStatement s s' := by
  refine .seq rfl (.takeKind hkind rfl) <|
    .bind rfl (tracks_primary h) fun head head' _ _ _ _ =>
    .bind rfl (tracks_suffix? h head head').sealed fun found found' _ _ _ hfound => ?_
  match found, found', hfound with
  | none, none, _ => exact .refuse nofun
  | some first, some first', hfirst =>
    refine .bind rfl (tracks_suffixes h (Option.some.inj hfirst)).sealed
      fun value value' _ _ _ hvalue => ?_
    have hcall : isCall value' = isCall value := (Prod.mk.inj hvalue).1
    rw [hcall]
    have hrefuse {token token' : Token} {t t' : State} : Tracks w .sealed .inner .inner blind
          (refuseAt (α := Unit) token .callWithoutCall)
          (refuseAt token' .callWithoutCall) t t' := .refuseAt nofun
    exact .ite (fun _ => .bind rfl hrefuse fun _ _ _ _ hr => by cases hr) fun _ => tracks_endInner

omit hkind

theorem tracks_branches : Tracks w .within .solid .solid blind (n.branches inLoop)
      (n'.branches inLoop) s s' := by
  refine .iterate (fun _ _ _ _ _ => ?_) rfl
  refine .bind_of rfl id (.splitLeadingWord (e := .within) rfl nofun) fun _ _ _ _ _ _ =>
    .at? nofun (fun hkind => ?_) fun _ => .pure rfl rfl
  exact .seq rfl (.takeKind hkind rfl) <|
    .seq rfl (h.expression ..) <|
    .seq rfl (tracks_block h inLoop) <| .pure rfl rfl

theorem tracks_conditional (hkind : s.cursor.kind = .keyword k) :
    Tracks w .within m .solid blind (n.conditional inLoop) (n'.conditional inLoop) s s' := by
  refine .seq rfl (.takeKind hkind rfl) <|
    .seq rfl (h.expression ..) <|
    .seq rfl (tracks_block h inLoop) <|
    .seq rfl (tracks_branches h inLoop) <|
    .accept nofun rfl rfl (fun _ _ => ?_) (.given (.pure rfl rfl))
  exact .seq rfl (tracks_block h inLoop) <| .given (.pure rfl rfl)

include hkind in
theorem tracks_loop : Tracks w .sealed m .solid blind n.loop n'.loop s s' :=
  .seq rfl (.takeKind hkind rfl) <|
    .seq rfl (h.expression ..) <|
    .seq rfl (tracks_block h true) <| .pure rfl rfl

omit h

theorem tracks_leave (hkind : s.cursor.kind = .keyword k) :
    Tracks w .whole m .agreed blind (leave inLoop) (leave inLoop) s s' :=
  .seq rfl (.takeKind hkind rfl) <|
    .ite (fun _ => .bind_of rfl id (.report nofun) fun _ _ _ _ _ _ => tracks_endInner)
      fun _ => tracks_endInner

include h

include hkind in
theorem tracks_answer : Tracks w .whole m .agreed blind n.answer n'.answer s s' := by
  refine .bind rfl (.takeKind hkind rfl) fun _ _ t t' _ _ => .kind (fun _ => Stands.shown) ?_
  dsimp only
  split
  · exact .given tracks_endInner
  · exact .given tracks_endInner
  · exact .given tracks_endInner
  · exact .seq rfl (h.expression _ t t') <| .given tracks_end

theorem tracks_functionDeclaration (hkind : s.cursor.kind = .fn)
    (hnext : s.cursor.nextKind? = some .identifier) :
    Tracks w .whole m .agreed blind n.functionDeclaration n'.functionDeclaration s s' := by
  refine .bind rfl (.takeKind hkind rfl) fun _ _ t t' htake _ => ?_
  cases htake
  exact .seq rfl (.takeKind (kind_advance hnext) rfl) <| .seq rfl tracks_parameters <|
    .seq rfl (tracks_functionBody h) <| tracks_end

theorem tracks_expressionStatement : Tracks w .whole m .agreed blind n.expressionStatement
      n'.expressionStatement s s' :=
  .seq rfl (h.expression _ s s') <| tracks_end

omit h

/-- The first word of a statement is told apart, and shows what the statement is. -/
theorem tracks_leadingWord {e : Extent} {p p' : Kind → Parser Stmt}
    (heof : s.cursor.kind ≠ .eof) (he : Extent.sealed.before e)
    (h : ∀ t t' : State, t.cursor = s.cursor.splitLeadingWord →
      Tracks w e m .agreed blind (p t.cursor.kind) (p' t.cursor.kind) t t') :
    Tracks w e m .agreed blind (move splitLeadingWord >>= fun _ => kind >>= p)
      (move splitLeadingWord >>= fun _ => kind >>= p') s s' := by
  refine .bind_of he id
    (.splitLeadingWord (e := .sealed) rfl fun _ hs => .inl (hs.rest_ne_nil heof))
    fun _ _ t t' hmove _ => ?_
  cases hmove
  refine .kind (fun _ hs => .inl (hs.rest_ne_nil ?_)) (h _ t' rfl)
  rcases s.cursor.kind_splitLeadingWord with hkind | ⟨k, hkind⟩
  · exact hkind ▸ heof
  · exact hkind ▸ nofun

include h

/-- **A statement without further branches does the same in the larger program**, also where it ends
with the tokens. -/
theorem tracks_whole
    (heof : s.cursor.kind ≠ .eof) (hbranch : s.cursor.splitLeadingWord.kind ≠ .keyword .«if») :
    Tracks w .whole m .agreed blind (n.statement inLoop) (n'.statement inLoop) s s' := by
  refine tracks_leadingWord heof rfl fun t t' ht => ?_
  rw [← ht] at hbranch
  split
  · next hkind =>
    have hstatement : Tracks w .whole m .agreed blind
        ((take >>= fun _ => n.statements inLoop) >>= fun body => pure (Stmt.block body))
        ((take >>= fun _ => n'.statements inLoop) >>= fun body => pure (Stmt.block body))
        t t' :=
      ((tracks_indented h inLoop hkind).whole.lower (by decide)).map fun _ _ _ => rfl
    rwa [bind_assoc, bind_assoc] at hstatement
  · next hkind => exact tracks_declaration h false hkind
  · next hkind => exact tracks_declaration h true hkind
  · next hkind => exact tracks_assignment h hkind
  · next hkind => exact tracks_callStatement h hkind
  · next hkind => exact absurd hkind hbranch
  · next hkind => exact (tracks_loop h hkind).whole.lower (by decide)
  · next hkind => exact tracks_leave inLoop hkind
  · next hkind => exact tracks_answer h hkind
  · exact .refuse nofun
  · exact .refuse nofun
  · next hkind =>
    have hrest (hs : Stands w m t) : t.cursor.rest ≠ [] := hs.rest_ne_nil (by rw [hkind]; nofun)
    exact .see (fun _ hs => .inl (hrest hs)) (fun hs hlike _ =>
        hlike.cursor.nextKind? hs.ended (hrest hs) (by rw [hkind]; nofun) (by rw [hkind]; nofun))
      (.ite (fun hnext => tracks_functionDeclaration h hkind hnext) fun _ =>
        tracks_expressionStatement h)
  · exact tracks_expressionStatement h

theorem tracks_statement (heof : s.cursor.kind ≠ .eof) :
    Tracks w .ending m .agreed blind (n.statement inLoop) (n'.statement inLoop) s s' := by
  by_cases hbranch : s.cursor.splitLeadingWord.kind = .keyword .«if»
  · refine tracks_leadingWord heof rfl fun t t' ht => ?_
    rw [← ht] at hbranch
    rw [hbranch]
    exact (tracks_conditional h inLoop hbranch).ending.lower (by decide)
  · exact (tracks_whole h inLoop heof hbranch).ending_of_whole

omit h

/-! ## Statements one after another -/

theorem accept_of_kind {α : Type} {p q : Parser α} {k : Kind} (h : s.cursor.kind = k) :
    (accept k >>= fun b => if b = true then p else q) s = p ⟨s.cursor.advance, s.reports⟩ := by
  rw [accept_bind, at?_of_kind h]
  rfl

theorem accept_of_kind_ne {α : Type} {p q : Parser α} {k : Kind} (h : s.cursor.kind ≠ k) :
    (accept k >>= fun b => if b = true then p else q) s = q s := by
  rw [accept_bind, at?_of_kind_ne h]
  rfl

section Rounds

variable {inLoop} {stmts stmts' : List Stmt}

theorem blockRound_of_dedent (h : s.cursor.skipNewlines.kind = .dedent) :
    n.blockRound inLoop stmts s = .ok none ⟨s.cursor.skipNewlines.advance, s.reports⟩ := by
  rw [blockRound, bind_of_ok (p := move _) rfl, accept_of_kind h]
  rfl

theorem blockRound_of_eof (h : s.cursor.skipNewlines.kind = .eof) :
    n.blockRound inLoop stmts s = .ok none ⟨s.cursor.skipNewlines, s.reports⟩ := by
  rw [blockRound, bind_of_ok (p := move _) rfl, accept_of_kind_ne (h ▸ nofun), at?_of_kind h]
  rfl

theorem blockRound_of_kind_ne (hdedent : s.cursor.skipNewlines.kind ≠ .dedent)
    (heof : s.cursor.skipNewlines.kind ≠ .eof) :
    n.blockRound inLoop stmts s =
      (do return some (stmts ++ (← recover (n.statement inLoop)).toList))
        ⟨s.cursor.skipNewlines, s.reports⟩ := by
  rw [blockRound, bind_of_ok (p := move _) rfl, accept_of_kind_ne hdedent, at?_of_kind_ne heof]

include h in
/-- One more statement, behind line breaks. -/
theorem tracks_further (hm : m.rank ≤ 1) (heof : s.cursor.kind ≠ .eof) :
    Tracks w .inside m m Option.isSome
      (do return some (stmts ++ (← recover (n.statement inLoop)).toList))
      (do return some (stmts' ++ (← recover (n'.statement inLoop)).toList)) s s' :=
  (Tracks.recover ((tracks_statement h inLoop heof).lower hm) nofun hm id).map fun _ _ _ => rfl

theorem further_ne_refused {r : Refusal} {t : State} :
    (do return some (stmts ++ (← recover (n.statement inLoop)).toList) :
      Parser (Option (List Stmt))) s ≠ .error (.refused r) t := fun h => by
  rcases bind_eq_error_cases h with h | ⟨_, _, -, h⟩
  · exact recover_ne_refused h
  · cases h

theorem exists_of_further {next t}
    (h : (do return some (stmts ++ (← recover (n.statement inLoop)).toList) :
      Parser (Option (List Stmt))) s = .ok next t) : ∃ later, next = some later := by
  obtain ⟨found, u, -, h⟩ := exists_of_bind_eq_ok h
  cases h
  exact ⟨_, rfl⟩

theorem turns_dedent (hdedent : s.cursor.skipNewlines.kind = .dedent) :
    Turns w (n.blockRound inLoop stmts) (n'.blockRound inLoop stmts') s s' := by
  refine ⟨fun hr hs => ?_, fun r t hr => ?_⟩ <;>
    cases (blockRound_of_dedent hdedent).symm.trans hr
  have hs₁ := hs.skipNewlines (by decide)
  have hrest := hs₁.rest_ne_nil (hdedent ▸ nofun)
  refine ⟨⟨hs₁.advance hrest, fun hnil => absurd (rest_skipNewlines_eq_nil hnil) hrest,
    suffix_refl _, fun _ depth hcloses => ⟨?_, fun _ => ?_⟩, trivial⟩, fun hlike _ => ?_⟩
  · exact (hcloses.skipNewlines hs.settled).advance_dedent hrest hdedent
  · rw [previousKind?_advance hrest hs₁.settled.kind_ne, hdedent]
  · have hlike₁ := hlike.skipNewlines hs
    rw [blockRound_of_dedent ((hlike₁.cursor.kind hs₁.settled.final (.inl hrest)).trans hdedent)]
    exact ⟨rfl, hlike₁.advance hs₁ hrest⟩

/-- A block that is not closed ends with the tokens; where it is closed, tokens are left. -/
theorem turns_eof (heof : s.cursor.skipNewlines.kind = .eof) :
    Turns w (n.blockRound inLoop stmts) (n'.blockRound inLoop stmts') s s' := by
  refine ⟨fun hr hs => ?_, fun r t hr => ?_⟩ <;> cases (blockRound_of_eof heof).symm.trans hr
  have hs₁ := hs.skipNewlines (by decide)
  have hopen (depth : Nat) : ¬ Closes (depth + 1) s.cursor.rest := fun hcloses =>
    not_closes_nil (hs₁.settled.rest_eq_nil_iff.mpr heof ▸ hcloses.skipNewlines hs.settled)
  refine ⟨⟨hs₁, rest_skipNewlines_eq_nil, suffix_refl _,
    fun _ depth hcloses => absurd hcloses (hopen depth), trivial⟩, fun hlike hreads => ?_⟩
  have hlike₁ := hlike.skipNewlines hs
  rcases hreads with hshown | ⟨-, depth, hcloses⟩ | hends
  · rw [blockRound_of_eof ((hlike₁.cursor.kind hs₁.settled.final hshown).trans heof)]
    exact ⟨rfl, hlike₁⟩
  · exact absurd hcloses (hopen depth)
  · cases hends.1

include h

theorem turns_blockRound :
    Turns w (n.blockRound inLoop stmts) (n'.blockRound inLoop stmts') s s' := by
  by_cases hdedent : s.cursor.skipNewlines.kind = .dedent
  · exact turns_dedent hdedent
  · by_cases heof : s.cursor.skipNewlines.kind = .eof
    · exact turns_eof heof
    · have hround : Tracks w .inside .agreed .agreed Option.isSome
          (do return some (stmts ++ (← recover (n.statement inLoop)).toList))
          (do return some (stmts' ++ (← recover (n'.statement inLoop)).toList))
          ⟨s.cursor.skipNewlines, s.reports⟩ ⟨s'.cursor.skipNewlines, s'.reports⟩ :=
        tracks_further h (by decide) heof
      refine ⟨fun hr hs => ?_, fun r t hr => ?_⟩ <;> rw [blockRound_of_kind_ne hdedent heof] at hr
      · obtain ⟨later, rfl⟩ := exists_of_further hr
        have hs₁ := hs.skipNewlines (by decide)
        obtain ⟨h₁, h⟩ := hround.ok hr hs₁
        refine ⟨(Passes.skipNewlines hs (by decide)).trans h₁ rfl, fun hlike hreads => ?_⟩
        have hlike₁ := hlike.skipNewlines hs
        have hkind := hlike₁.cursor.kind hs₁.settled.final (.inl (hs₁.rest_ne_nil heof))
        rw [blockRound_of_kind_ne (hkind ▸ hdedent) (hkind ▸ heof)]
        exact h hlike₁ (hreads.imp_right (.imp id fun h => by cases h.1))
      · exact further_ne_refused hr

theorem tracks_statementsOf : Tracks w .closing .agreed .agreed blind (n.statementsOf inLoop)
      (n'.statementsOf inLoop) s s' :=
  Turns.iterate (fun _ _ _ _ => turns_blockRound h) [] []

end Rounds

/-- **The grammar does the same in the larger program**, however deep it may nest. -/
theorem follows_nested : ∀ depth depth' : Nat, Follows w (nested depth) (nested depth')
  | 0, _ => ⟨fun _ _ _ => .endless, fun _ _ _ => .endless, fun _ _ _ => .endless⟩
  | depth + 1, depth' => by
    have hnext (depth' : Nat) : Follows w (nested (depth + 1)) (nested (depth' + 1)) := by
      have h := follows_nested depth depth'
      refine ⟨fun m s s' => ?_, fun m s s' => ?_, fun inLoop s s' => ?_⟩
      · have hexpression : Tracks w .sealed m .solid blind
            (nested depth).expressionOf (nested depth').expressionOf s s' := tracks_expressionOf h
        exact ⟨hexpression.ok, hexpression.refused⟩
      · have hternary : Tracks w .sealed m .inner blind
            (nested depth).ternaryOf (nested depth').ternaryOf s s' := tracks_ternaryOf h
        exact ⟨hternary.ok, hternary.refused⟩
      · have hstatements : Tracks w .closing .agreed .agreed blind
            ((nested depth).statementsOf inLoop) ((nested depth').statementsOf inLoop) s s' :=
          tracks_statementsOf h
        exact ⟨hstatements.ok, hstatements.refused⟩
    cases depth' with
    | zero =>
      exact ⟨fun m s s' => ((hnext 0).expression m s s').endless_right,
        fun m s s' => ((hnext 0).ternary m s s').endless_right,
        fun inLoop s s' => ((hnext 0).statements inLoop s s').endless_right⟩
    | succ depth' => exact hnext depth'

end Nested

end Offside
