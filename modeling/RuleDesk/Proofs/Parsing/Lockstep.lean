import RuleDesk.Proofs.Parsing.Progress

namespace RuleDesk

/-- What is compared of two tokens: their places and their names as they are
seen, and the text of one that is no name. Of what the grammar has no place for
only the kind is compared, unless the comparison is an exact one. -/
structure Token.Alike (exact : Prop) (left right : View) (t t' : Token) : Prop where
  kind : t.kind = t'.kind
  span : t.span.rebase left = t'.span.rebase right
  named : exact ∨ t.kind.isSound → left.name t.span t.name = right.name t'.span t'.name
  text : exact ∨ t.kind.isSound → ¬ t.kind.isName → t.text = t'.text

theorem Token.Alike.refl {exact : Prop} (t : Token) : t.Alike exact .same .same t :=
  ⟨rfl, rfl, fun _ => rfl, fun _ _ => rfl⟩

theorem Option.rel_alike_refl {exact : Prop} (o : Option Token) :
    Option.Rel (Token.Alike exact .same .same) o o := by
  cases o with
  | none => exact .none
  | some t => exact .some (.refl t)

/-- What the parts of the parser do to its state, one thing at a time. -/
inductive Act
  | report (e : SyntaxError)
  | panic (e : SyntaxError)
  | calm
  | depth (n : Nat)
  | read
  | enter (mode : Mode)

namespace Act

def apply : Act → ParseState → ParseState
  | report e, s => s.reported e
  | panic e, s => s.panicked e
  | calm, s => { s with panicking := false }
  | depth n, s => { s with depth := n }
  | read, s => s.advanced .normal
  | enter mode, s => s.advanced mode

/-- What is done where no error has been met, or in an exact comparison. The
keyword of another rule is never taken. A hex pattern starts at a brace behind an
equal sign. -/
def Allowed (exact : Prop) : Act → ParseState → Prop
  | read, s => ∃ k, s.kindAhead? = some k ∧ (k.isPlain ∨ exact ∧ k ≠ .keyword .kwRule)
  | enter .hex, s => s.kindAhead? = some (.symbol .lbrace) ∧ s.justRead (.symbol .equal)
  | enter .jump, s => s.kindAhead? = some (.symbol .lbracket)
  | enter .normal, _ => False
  | _, _ => True

/-- The same thing done in two parses. Errors are compared only if the
comparison is an exact one. -/
inductive Alike (exact : Prop) (left right : View) : Act → Act → Prop
  | report {e e' : SyntaxError} (same : exact → e.rebase left = e'.rebase right) :
    Alike exact left right (report e) (report e')
  | panic {e e' : SyntaxError} (same : exact → e.rebase left = e'.rebase right) :
    Alike exact left right (panic e) (panic e')
  | calm : Alike exact left right calm calm
  | depth (n : Nat) : Alike exact left right (depth n) (depth n)
  | read : Alike exact left right read read
  | enter (mode : Mode) : Alike exact left right (enter mode) (enter mode)

end Act

/-- A relation between the states of two parses that lasts while both of them
do the same: from related states they see the same and decide the same. The
two may part, and then never come together again. In an exact comparison the
errors are the same as well, and in any other one the parses part at an error. -/
structure Lockstep where
  rel : ParseState → ParseState → Prop
  parted : ParseState → ParseState → Prop
  exact : Prop
  left : View
  right : View
  ends : ∀ {a b c d}, left.offset a = right.offset c → left.offset b = right.offset d →
    left.offset (max a b) = right.offset (max c d)
  exact_keeps : exact → left.KeepsNames
  keeps : right.KeepsNames
  unnamed : ∀ span name, (left.name span name = "" ↔ name = "") ∧
      (left.name span name = "$" ↔ name = "$")
  parted_later : ∀ {s s' t t'}, parted s s' → s.Before t → s'.Before t' → parted t t'
  flawless : ∀ {s s'} (e : SyntaxError), rel s s' → exact ∨ parted (s.reported e) s'
  calm : ∀ {s s'}, rel s s' → exact ∨ s.panicking = false
  panicking : ∀ {s s'}, rel s s' → s.panicking = s'.panicking
  here : ∀ {s s'}, rel s s' → left.offset s.input.here.offset = right.offset s'.input.here.offset
  textStop : ∀ {s s'}, rel s s' → s.next? = none → left.offset s.textStop = right.offset s'.textStop
  next : ∀ {s s'}, rel s s' → Option.Rel (Token.Alike exact left right) s.next? s'.next?
  beyond : ∀ {s s' k}, rel s s' → s.kindAhead? = some k → k.looksBeyond →
      s.kindBeyond? = s'.kindBeyond?
  beyondParen : ∀ {s s'}, rel s s' → exact ∨ s.justRead (.keyword .kwOf) →
    s.kindAhead? = some (.symbol .lparen) → s.kindBeyond? = s'.kindBeyond?
  joined : ∀ {s s'}, rel s s' → s.kindAhead? = some .ident →
    s.kindBeyond? = some (.symbol .asterisk) → s.joined = s'.joined
  adjacentDots : ∀ {s s'}, rel s s' → s.justRead (.symbol .dot) →
    s.kindAhead? = some (.symbol .dot) → s.adjacent = s'.adjacent
  adjacentAsterisk : ∀ {s s'}, rel s s' → s.justRead (.sigil .identity) →
    s.kindAhead? = some (.symbol .asterisk) → s.adjacent = s'.adjacent
  act : ∀ {s s'} {a a' : Act}, rel s s' → a.Alike exact left right a' → a.Allowed exact s →
    parted (a.apply s) (a'.apply s') ∨ rel (a.apply s) (a'.apply s')

namespace Lockstep

variable (L : Lockstep)

/-- Two parts of a parser go in lockstep from a pair of states if they end in
related states with results that are alike, or the parses part. -/
def Follows (s s' : ParseState) (p p' : Parser α) (alike : α → α → Prop) : Prop :=
  L.parted (p.run s).2 (p'.run s').2 ∨
    (alike (p.run s).1 (p'.run s').1 ∧ L.rel (p.run s).2 (p'.run s').2)

/-- From all related states of which the first is in `pre`. Some results have
to be good for this, which is known of what is made of them in the end. -/
def When (pre : ParseState → Prop) (p p' : Parser α) (alike : α → α → Prop)
    (good : α → Prop := fun _ => True) : Prop :=
  ∀ s s', L.rel s s' → pre s → good (p.run s).1 → L.Follows s s' p p' alike

/-- From all related states. -/
abbrev Always (p p' : Parser α) (alike : α → α → Prop) (good : α → Prop := fun _ => True) : Prop :=
  L.When Parser.anywhere p p' alike good

section Rules

variable {L} {pre : ParseState → Prop} {p p' : Parser α} {alike : α → α → Prop} {good : α → Prop}
  {f f' : α → Parser β} {alike' : β → β → Prop} {good' : β → Prop}

theorem Follows.congr {s s' : ParseState} {q q' : Parser α} (run : p.run s = q.run s)
    (run' : p'.run s' = q'.run s') (h : L.Follows s s' q q' alike) : L.Follows s s' p p' alike := by
  rwa [Follows, run, run']

/-- One part after the other. Parses that have parted stay so. -/
theorem Follows.bind {s s' : ParseState} (h : L.Follows s s' p p' alike)
    (rest : alike (p.run s).1 (p'.run s').1 → L.rel (p.run s).2 (p'.run s').2 →
      L.Follows (p.run s).2 (p'.run s').2 (f (p.run s).1) (f' (p'.run s').1) alike') :
    L.Follows s s' (p >>= f) (p' >>= f') alike' := by
  rcases h with parted | ⟨same, rel⟩
  · exact .inl (L.parted_later parted (Parser.forward _ _) (Parser.forward _ _))
  · exact rest same rel

theorem When.restrict {pre' : ParseState → Prop} (h : L.When pre p p' alike good)
    (fewer : ∀ s, pre' s → pre s) :
    L.When pre' p p' alike good := fun s s' related start => h s s' related (fewer s start)

theorem Always.at (h : L.Always p p' alike good) : L.When pre p p' alike good :=
  h.restrict fun _ _ => trivial

theorem When.forget (h : L.When pre p p' alike) : L.When pre p p' alike good :=
  fun s s' related start _ => h s s' related start trivial

theorem When.pure {a a' : α} (h : alike a a') : L.When pre (pure a) (pure a') alike good :=
  fun _ _ related _ _ => .inr ⟨h, related⟩

/-- One part after the other, where what the first one comes to has to be
good. What the first parse has done so far may be used for the rest. -/
theorem When.bindGood {m : α → ParseState → Prop} (h : L.When pre p p' alike good)
    (back : ∀ a s, good' ((f a).run s).1 → good a) (fact : ∀ s, pre s → m (p.run s).1 (p.run s).2)
    (rest : ∀ a a', alike a a' → L.When (m a) (f a) (f' a') alike' good') :
    L.When pre (p >>= f) (p' >>= f') alike' good' :=
  fun s s' related start fine => (h s s' related start (back _ _ fine)).bind fun same rel =>
    rest _ _ same _ _ rel (fact s start) fine

theorem When.bind {m : α → ParseState → Prop} (h : L.When pre p p' alike)
    (fact : ∀ s, pre s → m (p.run s).1 (p.run s).2)
    (rest : ∀ a a', alike a a' → L.When (m a) (f a) (f' a') alike' good') :
    L.When pre (p >>= f) (p' >>= f') alike' good' := h.bindGood (fun _ _ _ => trivial) fact rest

theorem When.then (h : L.When pre p p' alike)
    (rest : ∀ a a', alike a a' → L.Always (f a) (f' a') alike' good') :
    L.When pre (p >>= f) (p' >>= f') alike' good' := h.bind (fun _ _ => trivial) rest

theorem When.thenGood (h : L.When pre p p' alike good)
    (back : ∀ a s, good' ((f a).run s).1 → good a)
    (rest : ∀ a a', alike a a' → L.Always (f a) (f' a') alike' good') :
    L.When pre (p >>= f) (p' >>= f') alike' good' := h.bindGood back (fun _ _ => trivial) rest

/-- A look at the state, by which nothing changes. -/
theorem When.look (alike : α → α → Prop) {g g' : ParseState → α} (run : ∀ s, p.run s = (g s, s))
    (run' : ∀ s, p'.run s = (g' s, s)) (same : ∀ s s', L.rel s s' → pre s → alike (g s) (g' s'))
    (rest : ∀ a a', alike a a' → L.When (fun s => pre s ∧ g s = a) (f a) (f' a') alike' good') :
    L.When pre (p >>= f) (p' >>= f') alike' good' := by
  refine .bind (m := fun a s => pre s ∧ g s = a) (fun s s' related start _ => ?_)
    (fun s start => ?_) rest
  · rw [Follows, run, run']
    exact .inr ⟨same s s' related start, related⟩
  · rw [run]
    exact ⟨start, rfl⟩

/-- One thing done to the state, the same on both sides. -/
theorem When.act {a a' : Act} {g g' : ParseState → α}
    (run : ∀ s, pre s → p.run s = (g s, a.apply s))
    (run' : ∀ s, p'.run s = (g' s, a'.apply s)) (same : a.Alike L.exact L.left L.right a')
    (allowed : ∀ s, pre s → a.Allowed L.exact s)
    (results : ∀ s s', L.rel s s' → alike (g s) (g' s')) :
    L.When pre p p' alike := by
  intro s s' related start _
  rw [Follows, run s start, run' s']
  exact (L.act related same (allowed s start)).imp_right fun rel => ⟨results s s' related, rel⟩

end Rules

/-! ### What is alike in two parses -/

def spans (s s' : Span) : Prop := s.rebase L.left = s'.rebase L.right

def token (t t' : Token) : Prop := t.Alike L.exact L.left L.right t'

def tokens (o o' : Option Token) : Prop := Option.Rel L.token o o'

def idents (i i' : Ident) : Prop := i.rebase L.left = i'.rebase L.right

def exprs (e e' : Expr) : Prop := e.rebase L.left = e'.rebase L.right

/-- For results that do not matter. -/
def whatever (_ _ : α) : Prop := True

/-- Loops in lockstep end at the same time, or go on with what is alike. -/
inductive Steps (alike : α → α → Prop) : ForInStep α → ForInStep α → Prop
  | done {a a' : α} (same : alike a a') : Steps alike (.done a) (.done a')
  | yield {a a' : α} (same : alike a a') : Steps alike (.yield a) (.yield a')

variable {L}

theorem token.kind {t t' : Token} (h : L.token t t') : t.kind = t'.kind := Token.Alike.kind h

theorem token.text {t t' : Token} (h : L.token t t') (sound : t.kind.isSound)
    (other : ¬ t.kind.isName) :
    t.text = t'.text := Token.Alike.text h (.inr sound) other

theorem token.span {t t' : Token} (h : L.token t t') : L.spans t.span t'.span := Token.Alike.span h

theorem token.ident {t t' : Token} (h : L.token t t') (sound : t.kind.isSound) :
    L.idents (Parser.identOf t) (Parser.identOf t') := by
  have span : t.span.rebase L.left = t'.span.rebase L.right := h.span
  have named : L.left.name t.span t.name = L.right.name t'.span t'.name :=
    Token.Alike.named h (.inr sound)
  simp only [idents, Ident.rebase, Parser.identOf, named, span]

/-- What is no name is spelled the same. -/
theorem token.spelled {t t' : Token} (h : L.token t t') (sound : t.kind.isSound)
    (other : ¬ t.kind.isName) :
    t.name = t'.name := congrArg String.ofList (h.text sound other)

theorem token.name {t t' : Token} (h : L.token t t') (exact : L.exact) : t.name = t'.name := by
  have named : L.left.name t.span t.name = L.right.name t'.span t'.name :=
    Token.Alike.named h (.inl exact)
  rwa [L.exact_keeps exact, L.keeps] at named

theorem spans.eq {s s' : Span} (h : L.spans s s') : s.rebase L.left = s'.rebase L.right := h

theorem spans.start {s s' : Span} (h : L.spans s s') :
    L.left.offset s.start = L.right.offset s'.start :=
  congrArg (·.start) h

theorem spans.stop {s s' : Span} (h : L.spans s s') :
    L.left.offset s.stop = L.right.offset s'.stop :=
  congrArg (·.stop) h

theorem spans.mk {a b c d : Nat} (h : L.left.offset a = L.right.offset c)
    (h' : L.left.offset b = L.right.offset d) :
    L.spans ⟨a, b⟩ ⟨c, d⟩ := by
  simp only [spans, Span.rebase, h, h']

theorem spans.point {a c : Nat} (h : L.left.offset a = L.right.offset c) :
    L.spans (.point a) (.point c) := .mk h h

theorem spans.through {s s' t t' : Span} (h : L.spans s s') (h' : L.spans t t') :
    L.spans (s.through t) (s'.through t') := .mk h.start (L.ends h'.stop h.stop)

theorem idents.eq {i i' : Ident} (h : L.idents i i') : i.rebase L.left = i'.rebase L.right := h

theorem idents.span {i i' : Ident} (h : L.idents i i') : L.spans i.span i'.span :=
  show (i.rebase L.left).span = (i'.rebase L.right).span from congrArg Ident.span h.eq

/-- In the second text all names are seen as they are. -/
theorem idents.named {i i' : Ident} (h : L.idents i i') : L.left.name i.span i.name = i'.name := by
  have named : (i.rebase L.left).name = (i'.rebase L.right).name := congrArg Ident.name h.eq
  exact named.trans (L.keeps _ _)

theorem idents.name {i i' : Ident} (h : L.idents i i') (exact : L.exact) : i.name = i'.name := by
  rw [← h.named, L.exact_keeps exact]

theorem exprs.span {e e' : Expr} (h : L.exprs e e') : L.spans e.span e'.span := by
  have same := congrArg Expr.span h
  rwa [Expr.rebase_span, Expr.rebase_span] at same

end Lockstep

end RuleDesk
