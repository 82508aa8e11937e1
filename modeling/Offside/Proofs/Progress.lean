import Offside.Proofs.Spans

/-!
# Proofs/Progress — what a parser does

All that is said of a parser from a state is one statement (`Reads`), and it is said of each way to
build parsers.  A parser meets no bound, and moves its cursor by steps: a round that goes on takes a
token.  It keeps and reports tokens that were left to it, or parts that a name was split or cut down
to.  It does the same wherever the line breaks are said to be, for tokens of layout only steer it.
And where nothing was reported, what it gives is told by the words that it passed.
-/

namespace Offside

open List Offside.Parser Cursor

namespace Parser

open Token.Scan (layoutKinds)

variable {α β : Type} {s t : State} {p q : Parser α} {a : α} {W' : List Word → α → List Word → Prop}
  {Q' : α → Cursor → Prop} {k : Token.Kind}

/-! ## Results -/

theorem bind_of_ok {q : α → Parser β} (h : p s = .ok a t) : (p >>= q) s = q a t := by
  change EStateM.bind p q s = q a t
  unfold EStateM.bind
  rw [h]

theorem bind_of_error {q : α → Parser β} {halt : Halt}
    (h : p s = .error halt t) : (p >>= q) s = .error halt t := by
  change EStateM.bind p q s = .error halt t
  unfold EStateM.bind
  rw [h]

@[simp] theorem kind_bind {g : Token.Kind → Parser α} : (kind >>= g) s = g s.cursor.kind s := rfl

theorem at?_of_kind (h : s.cursor.kind = k) :
    (at? k >>= fun b => if b = true then p else q) s = p s :=
  congrFun (if_pos (decide_eq_true h)) s

theorem at?_of_kind_ne (h : s.cursor.kind ≠ k) :
    (at? k >>= fun b => if b = true then p else q) s = q s :=
  congrFun (if_neg fun hk => h (of_decide_eq_true hk)) s

theorem expect_bind (k : Token.Kind) (fault : SyntaxFault) (q : Token → Parser α) :
    (expect k fault >>= q) = at? k >>= fun b =>
      if b = true then take >>= q else refuse fault >>= q := by
  rw [expect, bind_assoc]
  congr 1
  funext b
  cases b <;> rfl

theorem accept_bind (k : Token.Kind) (q : Bool → Parser α) : (accept k >>= q) = at? k >>= fun b =>
      if b = true then take >>= fun _ => q true else q false := by
  rw [accept, bind_assoc]
  congr 1
  funext b
  cases b with
  | true => simp only [if_true, bind_assoc, pure_bind]
  | false => simp only [Bool.false_eq_true, if_false, pure_bind]

theorem recover_of_ok (h : p s = .ok a t) : recover p s = .ok (some a) t := by
  rw [recover, h]

theorem recover_of_refused {r} (h : p s = .error (.refused r) t) :
    recover p s = .ok none ⟨t.cursor.skipStatement, ⟨r, true⟩ :: t.reports⟩ := by
  rw [recover, h]

/-- A sequence succeeds by its parts. -/
theorem exists_of_bind_eq_ok {f : α → Parser β} {s' : State} {b : β}
    (h : (p >>= f) s = .ok b s') : ∃ a s₁, p s = .ok a s₁ ∧ f a s₁ = .ok b s' := by
  change EStateM.bind p f s = .ok b s' at h
  unfold EStateM.bind at h
  split at h
  · next a s₁ hp => exact ⟨a, s₁, hp, h⟩
  · cases h

/-- **What rounds keep holds where they end**, with one that gives nothing. -/
theorem exists_of_iterateUpTo_eq_ok {round : α → Parser (Option α)} {P : α → State → Prop}
    (hround : ∀ {a s a' t}, P a s → round a s = .ok (some a') t → P a' t) : ∀ {n : Nat} {a b : α}
    {s s' : State}, P a s → iterateUpTo round n a s = .ok b s' →
      ∃ s₁, P b s₁ ∧ round b s₁ = .ok none s'
  | 0, _, _, _, _, _, h => by cases h
  | n + 1, a, b, s, s', ha, h => by
    obtain ⟨next, s₁, hnext, h⟩ := exists_of_bind_eq_ok h
    cases next with
    | none =>
      cases h
      exact ⟨s, ha, hnext⟩
    | some a' => exact exists_of_iterateUpTo_eq_ok hround (hround ha hnext) h

/-- Rounds without a bound are rounds up to one that is not met. -/
theorem exists_iterate_eq (round : α → Parser (Option α)) (a : α) (s : State) :
    ∃ n, iterate round a s = iterateUpTo round n a s := by
  match hr : round a s with
  | .ok none t =>
    refine ⟨1, ?_⟩
    rw [iterate, iterateUpTo, bind_of_ok hr, bind_of_ok hr]
  | .ok (some a') t =>
    refine ⟨t.cursor.weight + 1 + 1, ?_⟩
    rw [iterate, iterateUpTo, bind_of_ok hr, bind_of_ok hr]
  | .error halt t =>
    refine ⟨1, ?_⟩
    rw [iterate, iterateUpTo, bind_of_error hr, bind_of_error hr]

/-- A repetition ends in a round that finds nothing, its invariant kept. -/
theorem exists_of_iterate_eq_ok {round : α → Parser (Option α)} {P : α → State → Prop}
    (hround : ∀ {a s a' t}, P a s → round a s = .ok (some a') t → P a' t) {b : α} {s' : State}
    (ha : P a s) (h : iterate round a s = .ok b s') : ∃ s₁, P b s₁ ∧ round b s₁ = .ok none s' := by
  obtain ⟨n, hn⟩ := exists_iterate_eq round a s
  exact exists_of_iterateUpTo_eq_ok hround ha (hn ▸ h)

/-! ## Reading from a state -/

/-- Where nothing was reported, `W` holds of the words left in one state and of those left in the
other.  It is read backwards: only what is read later tells which part a token plays that was told
apart early. -/
def Spans (s s' : State) (W : List Word → List Word → Prop) : Prop :=
  s'.reports = [] → s.reports = [] ∧ ∀ read after, Ahead s'.cursor read after →
    ∃ before, Ahead s.cursor read before ∧ W (withoutSoft before) (withoutSoft after)

/-- Spans follow on one another. -/
theorem Spans.trans {u R S W} (h : Spans s t R) (h' : Spans t u S)
    (hW : ∀ before mid after, R before mid → S mid after → W before after) : Spans s u W := by
  intro hreports
  obtain ⟨hreports, hlater⟩ := h' hreports
  obtain ⟨hreports, hfirst⟩ := h hreports
  refine ⟨hreports, fun read after hafter => ?_⟩
  obtain ⟨mid, hmid, hS⟩ := hlater read after hafter
  obtain ⟨before, hbefore, hR⟩ := hfirst read mid hmid
  exact ⟨before, hbefore, hW _ _ _ hR hS⟩

section

variable (g : Position → Position) (T : Token → Prop)

/-- What can become of reading from `s`, and of reading where the line breaks are elsewhere.  By
steps of the cursor it comes to a value, and `Q` holds of it and of where the cursor is, and `W` of
it and of the words around it, or to a refusal, if `E` holds. -/
def Outcome (E : Prop) (s : State) (Q : α → Cursor → Prop) (W : List Word → α → List Word → Prop)
    (moved : EStateM.Result Halt State α) : EStateM.Result Halt State α → Prop
  | .ok a s' => Reaches s.cursor s'.cursor ∧ s'.Holds T ∧ moved = .ok a (s'.moved g) ∧
      Q a s'.cursor ∧ Spans s s' fun before after => W before a after
  | .error (.refused refusal) s' => E ∧ Reaches s.cursor s'.cursor ∧ s'.Holds T ∧
      T refusal.token ∧ moved = .error (.refused (refusal.moved g)) (s'.moved g)
  | .error .endless _ => False

/-- **What a parser does from a state.** -/
def Reads (E : Prop) (p : Parser α) (s : State) (Q : α → Cursor → Prop)
    (W : List Word → α → List Word → Prop) : Prop :=
  s.cursor.Settled → s.Holds T → Outcome g T E s Q W (p (s.moved g)) (p s)

/-- A token of this kind that was taken, and may be kept. -/
structure Taken (k : Token.Kind) (t : Token) : Prop where
  kept : Kept T t
  kind : t.kind = k
  cut : k = .identifier → T { t with lexeme := String.ofList t.lexeme.toList.dropLast }

end

/-- At least one token was taken, and `R` holds of what is given. -/
structure Took (s : State) (R : α → Prop) (a : α) (c : Cursor) : Prop where
  lt : c.weight < s.cursor.weight
  holds : R a

/-- A round goes on from `a`, which takes a token, or ends with it. -/
inductive Goes (s : State) (R : α → Cursor → Prop) (a : α) : Option α → Cursor → Prop
  | done {c} (h : R a c) : Goes s R a none c
  | on {a' c} (hlt : c.weight < s.cursor.weight) (h : R a' c) : Goes s R a (some a') c

theorem Goes.mono {R R' next c} (h : Goes t R a next c) (hle : t.cursor.weight ≤ s.cursor.weight)
    (hR : ∀ b, R b c → R' b c) : Goes s R' a next c := by
  cases h with
  | done h => exact .done (hR _ h)
  | on hlt h => exact .on (Nat.lt_of_lt_of_le hlt hle) (hR _ h)

variable {g : Position → Position} {T : Token → Prop} {E : Prop} {Q : α → Cursor → Prop}
  {W : List Word → α → List Word → Prop}

theorem Outcome.imp {E' : Prop} {s₀ r moved} (h : Outcome g T E s Q W moved r) (hE : E → E')
    (hreaches : Reaches s₀.cursor s.cursor)
    (hQ : ∀ a c, c.weight ≤ s.cursor.weight → Q a c → Q' a c)
    (hW : ∀ a s', Spans s s' (fun before after => W before a after) →
      Spans s₀ s' fun before after => W' before a after) : Outcome g T E' s₀ Q' W' moved r := by
  cases r with
  | ok a s' =>
    obtain ⟨hlater, hholds, hmoved, hpost, hspans⟩ := h
    exact ⟨hreaches.trans hlater, hholds, hmoved, hQ a _ hlater.weight_le hpost, hW a s' hspans⟩
  | error e s' =>
    cases e with
    | refused refusal =>
      obtain ⟨hrefused, hlater, hrest⟩ := h
      exact ⟨hE hrefused, hreaches.trans hlater, hrest⟩
    | endless => exact h.elim

namespace Reads

variable (role : Role) {fault : SyntaxFault} {token : Token} {f : Token → Parser α}

/-- Who is never refused gives a value. -/
theorem exists_ok (h : Reads g T False p s Q W) (hs : s.cursor.Settled)
    (hT : s.Holds T) : ∃ a s', p s = .ok a s' ∧
      Outcome g T False s Q W (p (s.moved g)) (.ok a s') := by
  have h := h hs hT
  cases hr : p s with
  | ok a s' => exact ⟨a, s', rfl, hr ▸ h⟩
  | error e s' =>
    rw [hr] at h
    cases e with
    | refused refusal => exact h.1.elim
    | endless => exact h.elim

/-- What stands at the cursor may tell what comes next. -/
theorem stay (hQ : Q a s.cursor)
    (hW : ∀ read words, Ahead s.cursor read words → W (withoutSoft words) a (withoutSoft words)) :
    Reads g T E (Pure.pure a) s Q W := fun _ hT =>
  ⟨.refl, hT, rfl, hQ, fun hreports => ⟨hreports, fun read after h => ⟨after, h, hW read after h⟩⟩⟩

theorem pure (hQ : Q a s.cursor) (hW : ∀ words, W words a words) :
    Reads g T E (Pure.pure a) s Q W := .stay hQ fun _ _ _ => hW _

theorem congr (h : p s = q s) (hmoved : p (s.moved g) = q (s.moved g))
    (hq : Reads g T E q s Q W) : Reads g T E p s Q W := by
  unfold Reads
  rw [h, hmoved]
  exact hq

/-- **What a sequence reads is put together from what its parts read.** -/
theorem bind {f : α → Parser β} {Q' : β → Cursor → Prop}
    {W' : List Word → β → List Word → Prop} (hp : Reads g T E p s Q W)
    (hf : ∀ a s', s'.cursor.weight ≤ s.cursor.weight → Q a s'.cursor → Reads g T E (f a) s' Q'
      fun mid b after => ∀ before, W before a mid → W' before b after) :
    Reads g T E (p >>= f) s Q' W' := by
  intro hs hT
  have h := hp hs hT
  cases hr : p s with
  | ok a s' =>
    rw [hr] at h
    obtain ⟨hreaches, hholds, hmoved, hQ, hspans⟩ := h
    rw [bind_of_ok hr, bind_of_ok hmoved]
    exact (hf a s' hreaches.weight_le hQ (hs.reaches hreaches) hholds).imp id hreaches
      (fun _ _ _ => id) fun _ _ h => hspans.trans h fun before _ _ hR hS => hS before hR
  | error e s' =>
    rw [hr] at h
    rw [bind_of_error hr]
    cases e with
    | refused refusal =>
      obtain ⟨hE, hreaches, hholds, htoken, hmoved⟩ := h
      exact ⟨hE, hreaches, hholds, htoken, bind_of_error hmoved⟩
    | endless => exact h

/-- The same, where a token was taken. -/
theorem seq {f : α → Parser β} {R : α → Prop} {Q' : β → Cursor → Prop}
    {W' : List Word → β → List Word → Prop} (hp : Reads g T E p s (Took s R) W)
    (hf : ∀ a s', s'.cursor.weight < s.cursor.weight → R a → Reads g T E (f a) s' Q'
      fun mid b after => ∀ before, W before a mid → W' before b after) :
    Reads g T E (p >>= f) s Q' W' :=
  .bind hp fun a s' _ h => hf a s' h.lt h.holds

/-- Weaker statements follow. -/
theorem mono (h : Reads g T E p s Q W) (hQ : ∀ a c, c.weight ≤ s.cursor.weight → Q a c → Q' a c)
    (hW : ∀ before a after, W before a after → W' before a after) : Reads g T E p s Q' W' :=
  fun hs hT => (h hs hT).imp id .refl hQ fun a _ hspans hreports =>
    (hspans hreports).imp id fun hread read after hafter =>
      (hread read after hafter).imp fun _ => .imp id (hW _ a _)

theorem post (h : Reads g T E p s Q W)
    (hQ : ∀ a c, c.weight ≤ s.cursor.weight → Q a c → Q' a c) : Reads g T E p s Q' W :=
  h.mono hQ fun _ _ _ => id

theorem imp (h : Reads g T E p s Q W)
    (hW : ∀ before a after, W before a after → W' before a after) : Reads g T E p s Q W' :=
  h.mono (fun _ _ _ => id) hW

/-- Who is never refused may be refused. -/
theorem ofReturns (h : Reads g T False p s Q W) : Reads g T E p s Q W :=
  fun hs hT => (h hs hT).imp False.elim .refl (fun _ _ _ => id) fun _ _ => id

theorem ite {c : Prop} [Decidable c] (hp : c → Reads g T E p s Q W)
    (hq : ¬c → Reads g T E q s Q W) : Reads g T E (if c then p else q) s Q W := by
  split
  · next h => exact hp h
  · next h => exact hq h

/-- What is seen of a cursor does not depend on places. -/
theorem see {f : Cursor → β} {k : β → Parser α} (hf : ∀ c, f (moved g c) = f c)
    (h : Reads g T E (k (f s.cursor)) s Q W) : Reads g T E (see f >>= k) s Q W :=
  .congr (q := k (f s.cursor)) rfl (congrArg (fun b => k b (s.moved g)) (hf s.cursor)) h

theorem kind {k} (h : Reads g T E (k s.cursor.kind) s Q W) :
    Reads g T E (kind >>= k) s Q W := .see kind_moved h

/-- Both branches of a look at the next token are read. -/
theorem at? (hp : s.cursor.kind = k → Reads g T E p s Q W)
    (hq : s.cursor.kind ≠ k → Reads g T E q s Q W) :
    Reads g T E (at? k >>= fun b => if b = true then p else q) s Q W :=
  .see (fun c => by rw [kind_moved]) (.ite (fun h => hp (of_decide_eq_true h)) fun h =>
    hq fun hk => h (decide_eq_true hk))

theorem refuse_bind {f : β → Parser α} : Reads g T True (refuse fault >>= f) s Q W := by
  refine fun _ hT => ⟨trivial, .refl, hT, hT.left.current, ?_⟩
  rw [Refusal.moved, ← current_moved]
  rfl

theorem refuse (fault : SyntaxFault) : Reads g T True (refuse fault) s Q W :=
  refuse_bind (f := Pure.pure)

theorem refuseAt_bind (h : Kept T token)
    {f : β → Parser α} : Reads g T True (refuseAt token fault >>= f) s Q W := by
  refine fun _ hT => ⟨trivial, .refl, hT, h.holds, ?_⟩
  rw [Refusal.moved, h.moved]
  rfl

theorem refuseAt (h : Kept T token) (fault : SyntaxFault) :
    Reads g T True (refuseAt token fault) s Q W := refuseAt_bind h (f := Pure.pure)

/-- What is reported is not accepted. -/
theorem report (h : Kept T token) (fault : SyntaxFault) :
    Reads g T E (Parser.report token fault) s (fun _ _ => True) fun _ _ _ => False := by
  refine fun _ hT => ⟨.refl, ⟨hT.hereditary, hT.left,
    forall_mem_cons.mpr ⟨h.holds, hT.reports⟩⟩, ?_, trivial, fun hnone => by cases hnone⟩
  simp only [Parser.report, State.moved, map_cons, Report.moved, h.moved]

/-- Skipping line breaks reads nothing but line breaks. -/
theorem skipNewlines : Reads g T E (move skipNewlines) s
    (fun _ c => c.kind ≠ .newline) fun before _ after => Breaks before after := by
  intro hs hT
  have hreaches := reaches_skipNewlines hs
  refine ⟨hreaches, hT.reaches hreaches, ?_, kind_skipNewlines hs, fun hreports =>
    ⟨hreports, fun _ _ hafter => hafter.skipNewlines⟩⟩
  rw [move, State.moved, skipNewlines_moved]
  rfl

/-- A leading word is told apart where it stands. -/
theorem splitLeadingWord {f}
    (h : ∀ s' : State, s'.cursor.weight ≤ s.cursor.weight → s'.cursor.Told →
      Reads g T E (f ()) s' Q W) : Reads g T E (move splitLeadingWord >>= f) s Q W := by
  refine .bind (Q := fun _ c => c.Told) (W := fun before _ after => before = after) ?_
    fun _ s' hle htold => (h s' hle htold).imp fun mid _ _ hW before heq => heq ▸ hW
  intro _ hT
  have hreaches : Reaches s.cursor s.cursor.splitLeadingWord := .single (.split _)
  refine ⟨hreaches, hT.reaches hreaches, ?_, told_splitLeadingWord _, fun hreports =>
    ⟨hreports, fun _ after hafter => ⟨after, hafter.splitLeadingWord, rfl⟩⟩⟩
  rw [move, State.moved, splitLeadingWord_moved]
  rfl

/-! ## Taking tokens -/

/-- A token is taken.  What follows may not tell its places apart. -/
theorem advance (hadmits : s.cursor.Admits role)
    (hf : f (s.cursor.current.moved g) = f s.cursor.current)
    (h : ∀ s' : State, s'.cursor = s.cursor.advance → s'.cursor.weight < s.cursor.weight →
      s.Holds T → Reads g T E (f s.cursor.current) s' Q
        fun mid a after => W (⟨s.cursor.current, role⟩ :: mid) a after) :
    Reads g T E (take >>= f) s Q W := by
  intro hs hT
  let s' : State := ⟨s.cursor.advance, s.reports⟩
  have hrest : s.cursor.rest ≠ [] := fun hnil => hadmits.eof (hs.rest_eq_nil_iff.mp hnil)
  have hreaches : Reaches s.cursor s'.cursor := .single (.advance hrest)
  have hmoved : (take >>= f) (s.moved g) = f s.cursor.current (s'.moved g) := by
    change f (s.cursor.moved g).current ⟨(s.cursor.moved g).advance, _⟩ = _
    rw [current_moved, advance_moved, hf]
    rfl
  have hspans : Spans s s' fun before mid => before = ⟨s.cursor.current, role⟩ :: mid :=
    fun hreports => ⟨hreports, fun _ _ hafter => hafter.advance hadmits⟩
  rw [hmoved]
  have hlater := h s' rfl (weight_advance_lt hrest) hT
  exact (hlater (hs.reaches hreaches) (hT.reaches hreaches)).imp id hreaches (fun _ _ _ => id)
    fun _ _ h => hspans.trans h fun _ _ _ heq hW => heq ▸ hW

/-- A token that the cursor admits is taken as the word of its role. -/
theorem take (hadmits : s.cursor.Admits role) (hkind : s.cursor.kind = k) (hk : k ∉ layoutKinds)
    (h : ∀ s' : State, s'.cursor = s.cursor.advance → s'.cursor.weight < s.cursor.weight →
      Taken T k s.cursor.current → Reads g T E (f s.cursor.current) s' Q
        fun mid a after => W (⟨s.cursor.current, role⟩ :: mid) a after) :
    Reads g T E (take >>= f) s Q W :=
  have hlayout : s.cursor.kind ∉ layoutKinds := hkind ▸ hk
  .advance role hadmits (by rw [Token.moved_of_notMem hlayout]) fun s' hs' hlt hT =>
    h s' hs' hlt ⟨⟨hT.left.current, hlayout⟩, hkind,
      fun hname => hT.hereditary.cut _ hT.left.current (hkind.trans hname)⟩

theorem takeMark (hkind : s.cursor.kind = k) (hk : isMark k = true)
    (h : ∀ t s', s'.cursor.weight < s.cursor.weight → Taken T k t →
      Reads g T E (f t) s' Q fun mid a after => W (⟨t, role⟩ :: mid) a after) :
    Reads g T E (Parser.take >>= f) s Q W :=
  have hmark := isMark_iff.mp hk
  .take role (admits_symbol (hkind ▸ hmark.1)) hkind hmark.2 fun s' _ => h _ s'

theorem takeName (hkind : s.cursor.kind = .identifier) (htold : role.leads = true → s.cursor.Told)
    (h : ∀ t s', s'.cursor.weight < s.cursor.weight → Taken T .identifier t →
      Reads g T E (f t) s' Q fun mid a after => W (⟨t, role⟩ :: mid) a after) :
    Reads g T E (Parser.take >>= f) s Q W :=
  .take role (admits_name hkind htold) hkind (by decide) fun s' _ => h _ s'

theorem takeKeyword {k} (hkind : s.cursor.kind = .keyword k) (hrole : role.leads = true)
    (h : ∀ t s', s'.cursor.weight < s.cursor.weight → Taken T (.keyword k) t →
      Reads g T E (f t) s' Q fun mid a after => W (⟨t, role⟩ :: mid) a after) :
    Reads g T E (Parser.take >>= f) s Q W :=
  .take role (admits_keyword hkind hrole) hkind (Token.keyword_notMem_layoutKinds k)
    fun s' _ => h _ s'

/-- A token that is not used again may be layout. -/
theorem skip (hkind : s.cursor.kind = k) (hk : isSymbol k = true)
    (h : ∀ t s', s'.cursor.weight < s.cursor.weight → t.kind = k →
      Reads g T E q s' Q fun mid a after => W (⟨t, role⟩ :: mid) a after) :
    Reads g T E (Parser.take >>= fun _ => q) s Q W :=
  .advance role (admits_symbol (hkind ▸ hk)) rfl fun s' _ hlt _ => h _ s' hlt hkind

/-- A token that is asked for is taken or refused. -/
theorem expect (hk : k = .identifier ∨ isMark k = true)
    (h : ∀ t s', s'.cursor.weight < s.cursor.weight → Taken T k t →
      Reads g T True (f t) s' Q fun mid a after => W (⟨t, .inner⟩ :: mid) a after) :
    Reads g T True (expect k fault >>= f) s Q W := by
  rw [expect_bind]
  refine .at? (fun hkind => ?_) fun _ => .refuse_bind
  rcases hk with rfl | hk
  · exact .takeName .inner hkind nofun h
  · exact .takeMark .inner hkind hk h

theorem skipExpect (hk : isSymbol k = true)
    (h : ∀ t s', s'.cursor.weight < s.cursor.weight → t.kind = k →
      Reads g T True q s' Q fun mid a after => W (⟨t, .inner⟩ :: mid) a after) :
    Reads g T True (Parser.expect k fault >>= fun _ => q) s Q W := by
  rw [expect_bind]
  exact .at? (fun hkind => .skip .inner hkind hk h) fun _ => .refuse_bind

/-- A token that may be there is taken if it is. -/
theorem accept (hadmits : s.cursor.kind = k → s.cursor.Admits role)
    (hp : ∀ t s', s'.cursor.weight < s.cursor.weight → t.kind = k →
      Reads g T E p s' Q fun mid a after => W (⟨t, role⟩ :: mid) a after)
    (hq : s.cursor.kind ≠ k → Reads g T E q s Q W) :
    Reads g T E (accept k >>= fun b => if b = true then p else q) s Q W := by
  rw [accept_bind]
  exact .at? (fun hkind => .advance role (hadmits hkind) rfl fun s' _ hlt _ => hp _ s' hlt hkind) hq

/-- A symbol may come next. -/
theorem acceptSymbol (hk : isSymbol k = true)
    (hp : ∀ t s', s'.cursor.weight < s.cursor.weight → t.kind = k →
      Reads g T E p s' Q fun mid a after => W (⟨t, .inner⟩ :: mid) a after)
    (hq : s.cursor.kind ≠ k → Reads g T E q s Q W) :
    Reads g T E (Parser.accept k >>= fun b => if b = true then p else q) s Q W :=
  .accept .inner (fun hkind => admits_symbol (hkind ▸ hk)) hp hq

/-- A statement that is refused is skipped, which takes at least one token where it did not begin
with its end. -/
theorem recover {R} (h : Reads g T True p s (Took s R) W) (hnewline : s.cursor.kind ≠ .newline)
    (hdedent : s.cursor.kind ≠ .dedent) (heof : s.cursor.kind ≠ .eof) :
    Reads g T E (recover p) s (Took s fun found => ∀ a ∈ found, R a)
      fun before found after => ∃ a, found = some a ∧ W before a after := by
  intro hs hT
  have hr := h hs hT
  cases hp : p s with
  | ok a s' =>
    rw [hp] at hr
    obtain ⟨hreaches, hholds, hmoved, htook, hspans⟩ := hr
    rw [recover_of_ok hp, recover_of_ok hmoved]
    refine ⟨hreaches, hholds, rfl, ⟨htook.lt, ?_⟩, fun hreports => ?_⟩
    · rintro _ ⟨⟩
      exact htook.holds
    · exact (hspans hreports).imp id fun hread read after hafter =>
        (hread read after hafter).imp fun _ => .imp id fun hW => ⟨a, rfl, hW⟩
  | error e s' =>
    rw [hp] at hr
    cases e with
    | endless => exact hr.elim
    | refused refusal =>
      obtain ⟨-, hreaches, hholds, htoken, hmoved⟩ := hr
      have hskip := reaches_skipStatement (hs.reaches hreaches)
      rw [recover_of_refused hp, recover_of_refused hmoved]
      refine ⟨hreaches.trans hskip, ⟨hT.hereditary, (hholds.reaches hskip).left,
        forall_mem_cons.mpr ⟨htoken, hholds.reports⟩⟩, ?_, ⟨?_, ?_⟩,
        fun hnone => by cases hnone⟩
      · simp [State.moved, Report.moved, Refusal.moved]
      · rcases Nat.lt_or_eq_of_le hreaches.weight_le with hlt | heq
        · exact Nat.lt_of_le_of_lt hskip.weight_le hlt
        · have hkind : ∀ k, s.cursor.kind ≠ k → (∀ w, k ≠ .keyword w) → s'.cursor.kind ≠ k := by
            rintro k hk hword rfl
            rcases hreaches.kind_of_weight_eq heq with hsame | ⟨w, hw⟩
            · exact hk hsame.symm
            · exact hword w hw
          rw [← heq]
          exact weight_skipStatement_lt (hs.reaches hreaches) (hkind _ hnewline nofun)
            (hkind _ hdedent nofun) (hkind _ heof nofun)
      · rintro _ ⟨⟩

/-! ## Repetition -/

/-- What a round has to do: to keep `P`, or to reach `Z`. -/
def Step (P Z : List Word → α → List Word → Prop) (a : α) (mid : List Word) (next : Option α)
    (after : List Word) : Prop :=
  ∀ before, P before a mid → match next with
    | none => Z before a after
    | some a' => P before a' after

section Repetition

variable {w : Nat} {round : α → Parser (Option α)} {R : α → Cursor → Prop}
  {P Z : List Word → α → List Word → Prop}
  (hround : ∀ a s, s.cursor.weight ≤ w → R a s.cursor →
    Reads g T E (round a) s (Goes s R a) (Step P Z a))

include hround

/-- More rounds than there are words left are enough, since each round that goes on takes one. -/
theorem iterateUpTo : ∀ (n : Nat) (a : α) (s : State), s.cursor.weight < n →
    s.cursor.weight ≤ w → R a s.cursor → Reads g T E (iterateUpTo round n a) s R
      fun mid b after => ∀ before, P before a mid → Z before b after
  | 0, _, _, hn, _, _ => absurd hn (Nat.not_lt_zero _)
  | n + 1, a, s, hn, hw, ha => by
    refine .bind (hround a s hw ha) fun next s' _ hnext => ?_
    cases hnext with
    | done ha => exact .pure ha fun _ _ hstep before hP => hstep before hP
    | @on a' _ hlt ha' =>
      exact (iterateUpTo n a' s' (by omega) (by omega) ha').imp fun _ _ _ h _ hstep before hP =>
        h before (hstep before hP)

/-- **A repetition keeps what its rounds keep.** -/
theorem iterate (hw : s.cursor.weight ≤ w) (ha : R a s.cursor) :
    Reads g T E (Parser.iterate round a) s R
      fun mid b after => ∀ before, P before a mid → Z before b after := by
  refine .bind (hround a s hw ha) fun next s' _ hnext => ?_
  cases hnext with
  | done ha => exact .pure ha fun _ _ hstep before hP => hstep before hP
  | @on a' _ hlt ha' =>
    -- The bound on the rounds is a weight, and weights are of kinds only.
    refine .congr (q := Parser.iterateUpTo round (s'.cursor.weight + 1) a') rfl ?_
      ((iterateUpTo hround _ a' s' (Nat.lt_succ_self _) (by omega) ha').imp
        fun _ _ _ h _ hstep before hP => h before (hstep before hP))
    exact congrArg (fun n => Parser.iterateUpTo round (n + 1) a' (s'.moved g))
      (weight_moved s'.cursor)

end Repetition

/-- A way to collect items: there may be none, and commas do not count. -/
structure Collects (L : List Word → List α → List Word → Prop) : Prop where
  nil : ∀ words, L words [] words
  comma : ∀ {before items t after}, L before items (⟨t, .inner⟩ :: after) → t.kind = .comma →
    L before items after

section Collection

variable {w : Nat} {R : α → Prop} {L : List Word → List α → List Word → Prop}
  {item : List α → Parser α} (hL : Collects L)
  (hitem : ∀ items s, s.cursor.weight ≤ w → Reads g T True (item items) s (Took s R)
    fun mid a after => ∀ before, L before items mid → L before (items ++ [a]) after)

include hL

theorem separator (items : List α) (closer : Token.Kind) :
    Reads g T E (Parser.separator closer) s (fun _ _ => True)
      fun mid _ after => ∀ before, L before items mid → L before items after := by
  refine .acceptSymbol rfl (fun _ _ _ ht => .pure trivial fun _ _ h => hL.comma h ht) fun _ => ?_
  refine .congr (q := Pure.pure _) rfl (congrArg (EStateM.Result.ok · (s.moved g)) ?_)
    (.pure trivial fun _ _ h => h)
  change ((s.cursor.moved g).afterSoftBreak && decide ((s.cursor.moved g).kind ≠ closer)) = _
  simp

include hitem

/-- Items between commas are collected. -/
theorem commaSeparated (hw : s.cursor.weight ≤ w) : Reads g T True (Parser.commaSeparated item) s
    (Took s fun items => ∀ a ∈ items, R a) L := by
  refine .seq (hitem [] s hw) fun first s₁ hlt hfirst => ?_
  refine .mono (.iterate (w := w) (R := fun items _ => ∀ a ∈ items, R a) (P := L) (Z := L)
    (fun items s hw hitems => ?_) (by omega) (forall_mem_singleton.mpr hfirst))
    (fun _ _ _ hitems => ⟨by omega, hitems⟩) fun _ _ _ h before hfirst =>
      h before (hfirst before (hL.nil before))
  refine .acceptSymbol rfl (fun t s₂ hlt₂ ht => ?_) fun _ => .pure (.done hitems) fun _ _ h => h
  exact .seq (hitem items s₂ (by omega)) fun next s₃ hlt₃ hnext => .pure
    (.on (by omega) (forall_mem_append.mpr ⟨hitems, forall_mem_singleton.mpr hnext⟩))
    fun _ _ hnext before h => hnext before (hL.comma h ht)

/-- Items between separators up to a closer are collected. -/
theorem elements {closer} (hw : s.cursor.weight ≤ w) :
    Reads g T True (elements closer item) s (fun items _ => ∀ a ∈ items, R a) L := by
  refine .bind (.iterate (w := w) (R := fun found _ => ∀ a ∈ found.1, R a)
    (P := fun before found => L before found.1) (Z := fun before found => L before found.1)
    (fun found s hw hfound => ?_) hw (forall_mem_nil _)) fun found _ _ hfound =>
      .pure hfound fun words before h => h before (hL.nil before)
  obtain ⟨items, more⟩ := found
  refine .see (fun c => by rw [kind_moved])
    (.ite (fun _ => .pure (.done hfound) fun _ before h => h) fun _ => ?_)
  refine .seq (hitem items s hw) fun next s₁ hlt hnext =>
    .bind (.separator hL (items ++ [next]) closer) fun more s₂ hle _ => .pure (.on (by omega)
      (forall_mem_append.mpr ⟨hfound, forall_mem_singleton.mpr hnext⟩)) ?_
  exact fun words mid hmore before hnext before' h => hmore before' (hnext before' h)

end Collection

end Reads

end Parser

end Offside
