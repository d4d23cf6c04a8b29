import Sequitur.Proof.Replay
import Sequitur.Proofs.HoleTable

/-!
# What lenient elaboration does

Elaborating the arguments of a step gives terms, makes calls on the holes of the proof and takes notes.
`Expr.Fills` says which, one argument after the other: an argument is a leaf, which makes at most one call
(`Expr.Leaf`), or an application whose arguments are looked at in turn. `Step.Elaborates` says so for the
steps of a proof. The functions do what these relations say (`Expr.does_fill`, `Step.does_elaborateAll`), so
what holds of every proof is shown by induction on them.
-/

namespace Sequitur

/-- A diagnostic is at a token. -/
def Diagnostic.At (d : Diagnostic) (r : Token.Ref) : Prop := d.token = r.index ∧ d.span = r.span

/-- All notes are at one token, and what it is refined to are kinds of names. -/
structure Notes.At (n : Notes) (r : Token.Ref) : Prop where
  diagnostics : ∀ d ∈ n.diagnostics, d.At r
  marks : ∀ m ∈ n.marks, ∃ kind : Token.Kind, kind.isName = true ∧ m = .refine r.index kind

namespace Notes.At

variable {m n : Notes} {r : Token.Ref}

theorem empty (r : Token.Ref) : Notes.At ∅ r := ⟨List.forall_mem_nil _, List.forall_mem_nil _⟩

theorem append (hm : m.At r) (hn : n.At r) : (m ++ n).At r :=
  ⟨List.forall_mem_append.2 ⟨hm.diagnostics, hn.diagnostics⟩, List.forall_mem_append.2 ⟨hm.marks, hn.marks⟩⟩

theorem fault (f : Fault) (r : Token.Ref) : (Noted.fault f r).notes.At r :=
  ⟨List.forall_mem_singleton.2 ⟨rfl, rfl⟩, List.forall_mem_nil _⟩

theorem refine (r : Token.Ref) {kind : Token.Kind} (h : kind.isName = true) :
    (Noted.refine r kind).notes.At r :=
  ⟨List.forall_mem_nil _, List.forall_mem_singleton.2 ⟨kind, h, rfl⟩⟩

end Notes.At

open Holes

/-! ### Arguments -/

/-- An argument that is not looked into: a parameter, a hole that is there, a name that nothing has, or
something that cannot stand in its place. -/
inductive Expr.Leaf (scope : Scope) (params : List Param) (want : Param) (e : Expr) (hs : Holes) :
    Term → List Call → Prop where
  | var {param : Param} : Param.find? params e.head.text = some param →
    param.type.text = want.type.text → Leaf scope params want e hs (.var e.head e.span param) []
  | use {hole : Hole} : hs.find? e.head.text = some hole → hole.param.type.text = want.type.text →
    Leaf scope params want e hs hole.term [.useAt e.head.text e.span]
  | named : Param.find? params e.head.text = none → hs.find? e.head.text = none →
    scope.find? e.head.text = none →
    Leaf scope params want e hs (.hole e.head e.span want) [.named e.head e.span want]
  | fresh : Leaf scope params want e hs (hs.fresh e.head e.span want).term [.fresh e.head e.span want]

/-- Arguments in the places of parameters, from the holes `hs` on. Where arguments run out there are holes
at `head`, and further arguments are not looked at. -/
inductive Expr.Fills (scope : Scope) (params : List Param) :
    Token.Ref → List Param → List Expr → Holes → List Term → List Call → Notes → Prop where
  | done (head : Token.Ref) (es : List Expr) (hs : Holes) : Fills scope params head [] es hs [] [] ∅
  | missing {head : Token.Ref} {want : Param} {wants : List Param} {hs : Holes} {ts : List Term}
    {cs : List Call} {n : Notes} :
    Fills scope params head wants [] (hs.after (.fresh head (.empty head.span.stop) want)) ts cs n →
    Fills scope params head (want :: wants) [] hs ((hs.fresh head (.empty head.span.stop) want).term :: ts)
      (.fresh head (.empty head.span.stop) want :: cs) n
  | leaf {head : Token.Ref} {want : Param} {wants : List Param} {e : Expr} {es : List Expr} {hs : Holes}
    {t : Term} {ts : List Term} {c cs : List Call} {m n : Notes} :
    e.Leaf scope params want hs t c → m.At e.head →
    -- what creates a hole has a fault, and so have arguments of what takes none
    (m.diagnostics = [] → e.args = [] ∧ ∀ d ∈ c, d.creates = false) →
    Fills scope params head wants es (hs.run c) ts cs n →
    Fills scope params head (want :: wants) (e :: es) hs (t :: ts) (c ++ cs) (m ++ n)
  | app {head : Token.Ref} {want : Param} {wants : List Param} {e : Expr} {es : List Expr} {hs : Holes}
    {decl : TermDecl} {as ts : List Term} {c cs : List Call} {l m n : Notes} :
    scope.find? e.head.text = some (.term decl) → decl.type.text = want.type.text →
    e.args.length = decl.params.length → l.At e.head →
    Fills scope params e.head decl.params e.args hs as c m →
    Fills scope params head wants es (hs.run c) ts cs n →
    Fills scope params head (want :: wants) (e :: es) hs (.app e.head e.span decl as :: ts) (c ++ cs)
      (l ++ m ++ n)

/-- An argument before others. -/
theorem Expr.Fills.cons {scope : Scope} {params : List Param} {head head' : Token.Ref} {want : Param}
    {wants : List Param} {e : Expr} {es : List Expr} {hs : Holes} {t : Term} {ts : List Term}
    {c cs : List Call} {m n : Notes} (h : Fills scope params head [want] [e] hs [t] c m)
    (hrest : Fills scope params head' wants es (hs.run c) ts cs n) :
    Fills scope params head' (want :: wants) (e :: es) hs (t :: ts) (c ++ cs) (m ++ n) := by
  cases h with
  | leaf hleaf hat hclean hdone =>
    cases hdone
    rw [List.append_nil, Notes.append_empty] at *
    exact .leaf hleaf hat hclean hrest
  | app hdecl htype hlen hat hargs hdone =>
    cases hdone
    rw [List.append_nil, Notes.append_empty] at *
    exact .app hdecl htype hlen hat hargs hrest

namespace Filling

variable {α β : Type} {hs : Holes}

/-- The value, the calls and the notes of a computation, from any table on that has the holes `hs`. The calls
are allowed, and they refer to holes that are there. -/
def Does (x : Filling α) (hs : Holes) (Q : α → List Call → Notes → Prop) : Prop :=
  ∀ v : HoleTable, v.Mirrors hs → ∃ cs, v.Always HoleTable.Allows cs ∧ v.Always HoleTable.Resolves cs ∧
    (x.run v).value.2 = v.run cs ∧ Q (x.run v).value.1 cs (x.run v).notes

theorem Does.mono {P Q : α → List Call → Notes → Prop} {x : Filling α} (h : Does x hs P)
    (hPQ : ∀ a c n, P a c n → Q a c n) : Does x hs Q := by
  intro v hv
  obtain ⟨cs, hallows, hresolves, hcs, hP⟩ := h v hv
  exact ⟨cs, hallows, hresolves, hcs, hPQ _ _ _ hP⟩

theorem does_pure {Q : α → List Call → Notes → Prop} {a : α} (h : Q a [] ∅) : Does (pure a) hs Q :=
  fun _ _ => ⟨[], trivial, trivial, rfl, h⟩

theorem does_bind {Q : β → List Call → Notes → Prop} {x : Filling α} {f : α → Filling β}
    (h : Does x hs fun a c m => Does (f a) (hs.run c) fun b d n => Q b (c ++ d) (m ++ n)) :
    Does (x >>= f) hs Q := by
  intro v hv
  obtain ⟨c, hallows, hresolves, hc, hf⟩ := h v hv
  obtain ⟨d, hallows', hresolves', hd, hQ⟩ := hf (v.run c) (hv.run hallows hresolves)
  rw [← hc] at hd hQ
  refine ⟨c ++ d, HoleTable.always_append hallows hallows', HoleTable.always_append hresolves hresolves', ?_, hQ⟩
  rw [HoleTable.run_append, ← hc]
  exact hd

theorem does_note {Q : β → List Call → Notes → Prop} {x : Noted α} {f : α → Filling β}
    (h : Does (f x.value) hs fun b c n => Q b c (x.notes ++ n)) : Does (liftM x >>= f) hs Q := by
  refine does_bind fun v _ => ⟨[], trivial, trivial, rfl, ?_⟩
  have hnotes : ((liftM x : Filling α).run v).notes = x.notes := Notes.append_empty x.notes
  rw [hnotes]
  exact h

theorem does_get? {Q : β → List Call → Notes → Prop} {name : String} {f : Option Term → Filling β}
    (h : Does (f ((hs.find? name).map Hole.term)) hs Q) : Does (Filling.get? name >>= f) hs Q := by
  intro v hv
  rw [← hv.get?_eq] at h
  exact h v hv

theorem does_fresh {Q : Term → List Call → Notes → Prop} {token : Token.Ref} {span : Span} {want : Param}
    (h : Q (hs.fresh token span want).term [.fresh token span want] ∅) : Does (fresh token span want) hs Q := by
  intro v hv
  rw [← hv.freshTerm_eq] at h
  exact ⟨[.fresh token span want], ⟨trivial, trivial⟩, ⟨trivial, trivial⟩, rfl, h⟩

theorem does_named {Q : Term → List Call → Notes → Prop} {head : Token.Ref} {span : Span} {want : Param}
    (hnew : hs.find? head.text = none) (h : Q (.hole head span want) [.named head span want] ∅) :
    Does (named head span want) hs Q := by
  intro v hv
  have hallows : v.get? head.text = none := by rw [hv.get?_eq, hnew, Option.map_none]
  exact ⟨[.named head span want], ⟨hallows, trivial⟩, ⟨trivial, trivial⟩, rfl, h⟩

theorem does_useAt {Q : Unit → List Call → Notes → Prop} {name : String} {span : Span} {hole : Hole}
    (hfind : hs.find? name = some hole) (h : Q () [.useAt name span] ∅) : Does (useAt name span) hs Q := by
  intro v hv
  have hresolves : (v.get? name).isSome := by rw [hv.get?_eq, hfind, Option.map_some, Option.isSome_some]
  exact ⟨[.useAt name span], ⟨trivial, trivial⟩, ⟨hresolves, trivial⟩, rfl, h⟩

theorem does_ite {Q : α → List Call → Notes → Prop} {c : Prop} [Decidable c] {x y : Filling α}
    (hx : c → Does x hs Q) (hy : ¬c → Does y hs Q) : Does (if c then x else y) hs Q :=
  iteInduction (motive := (Does · hs Q)) hx hy

end Filling

open Filling

theorem TermDecl.isName_nameKind (d : TermDecl) : d.nameKind.isName = true := by
  unfold nameKind
  split <;> rfl

theorem at_checkArity (head : Token.Ref) (want got : Nat) : (checkArity head want got).notes.At head := by
  unfold checkArity
  split
  · exact .empty head
  · exact (Notes.At.fault _ head).append (.empty head)

theorem value_checkArity {head : Token.Ref} {want got : Nat}
    (h : (checkArity head want got).value = true) : got = want := by
  unfold checkArity at h
  split at h
  · assumption
  · exact absurd h nofun

theorem diagnostics_checkArity {head : Token.Ref} {want got : Nat}
    (h : (checkArity head want got).notes.diagnostics = []) :
    (checkArity head want got).value = true ∧ got = want := by
  unfold checkArity at h ⊢
  split at h
  · next he =>
    rw [if_pos he]
    exact ⟨rfl, he⟩
  · exact absurd h nofun

namespace Expr

variable {scope : Scope} {params : List Param} {head : Token.Ref} {want : Param} {e : Expr} {hs : Holes}
  {t : Term} {c : List Call} {m : Notes}

theorem Leaf.fills (h : e.Leaf scope params want hs t c) (hat : m.At e.head)
    (hclean : m.diagnostics = [] → e.args = [] ∧ ∀ d ∈ c, d.creates = false) :
    Fills scope params head [want] [e] hs [t] c m := by
  have hfills := Fills.leaf h hat hclean (.done head [] (hs.run c))
  rwa [List.append_nil, Notes.append_empty] at hfills

/-- Where there is a fault, nothing is said about arguments and holes. -/
theorem Leaf.fills_of_fault (h : e.Leaf scope params want hs t c) (hat : m.At e.head)
    (hfault : m.diagnostics ≠ []) : Fills scope params head [want] [e] hs [t] c m :=
  h.fills hat fun hnil => absurd hnil hfault

mutual
theorem does_fill (head : Token.Ref) : ∀ (want : Param) (e : Expr) (hs : Holes),
    Does (e.fill scope params want) hs fun t c n => Fills scope params head [want] [e] hs [t] c n
  | want, ⟨name, args, span⟩, hs => by
    have hfresh : ∀ (f : Fault) {m : Notes}, m.At name →
        Does (do Noted.fault f name; Filling.fresh name span want) hs fun t c n =>
          Fills scope params head [want] [⟨name, args, span⟩] hs [t] c (m ++ n) := by
      intro f m hm
      refine does_note (does_fresh (Leaf.fresh.fills_of_fault ?_ ?_))
      · exact hm.append ((Notes.At.fault f name).append (.empty name))
      · simp [Noted.fault]
    unfold fill
    split
    · next param hparam =>
      have hrefine : (Noted.refine name .argName).notes.At name := .refine name rfl
      have hvar : ∀ {m : Notes}, m.At name → (m.diagnostics = [] → args = []) →
          Does (if param.type.text = want.type.text then pure (.var name span param)
            else do Noted.fault .argTypeMismatch name; Filling.fresh name span want) hs fun t c n =>
              Fills scope params head [want] [⟨name, args, span⟩] hs [t] c (m ++ n) := by
        intro m hm hclean
        refine does_ite (fun htype => does_pure ?_) fun _ => hfresh _ hm
        rw [Notes.append_empty]
        exact (Leaf.var hparam htype).fills hm fun hnil => ⟨hclean hnil, List.forall_mem_nil _⟩
      refine does_note (does_ite (fun _ => does_note ?_) fun hargs => hvar hrefine fun _ => ?_)
      · simp only [← Notes.append_assoc]
        exact hvar (hrefine.append (.fault _ name)) nofun
      · simpa using hargs
    · next hparam =>
      refine does_get? ?_
      cases hhole : hs.find? name.text with
      | some hole =>
        refine does_ite (fun htype => ?_) fun _ => hfresh _ (.empty name)
        have huse : ∀ {m : Notes}, m.At name → (m.diagnostics = [] → args = []) →
            Does (do Filling.useAt name.text span; return hole.term) hs fun t c n =>
              Fills scope params head [want] [⟨name, args, span⟩] hs [t] c (m ++ n) := by
          intro m hm hclean
          refine does_bind (does_useAt hhole (does_pure ?_))
          rw [List.append_nil, Notes.append_empty, Notes.append_empty]
          refine (Leaf.use hhole htype).fills hm fun hnil => ⟨hclean hnil, ?_⟩
          exact List.forall_mem_singleton.2 rfl
        refine does_ite (fun _ => does_note (huse (.fault _ name) nofun)) fun hargs => ?_
        exact huse (.empty name) fun _ => by simpa using hargs
      | none =>
        dsimp only [Option.map_none]
        split
        · next hdecl =>
          refine does_note (does_named hhole ((Leaf.named hparam hhole hdecl).fills_of_fault ?_ nofun))
          exact (Notes.At.fault _ name).append (.empty name)
        · next decl hdecl =>
          refine does_ite (fun _ => hfresh _ (.empty name)) fun htype => does_note ?_
          refine does_ite (fun hok => does_fresh ?_) fun hok => does_note (does_bind ?_)
          · refine Leaf.fresh.fills_of_fault ((at_checkArity ..).append (.empty name)) fun hnil => ?_
            rw [Notes.append_empty] at hnil
            simp [(diagnostics_checkArity hnil).1] at hok
          · have hlen : args.length = decl.params.length := value_checkArity (by simpa using hok)
            refine (does_fillAll name decl.params args hs hlen).mono fun ts c n hts => does_pure ?_
            have hat := (at_checkArity name decl.params.length args.length).append
              (.refine name decl.isName_nameKind)
            have happ := Fills.app (e := ⟨name, args, span⟩) hdecl (by simpa using htype) hlen hat hts
              (.done head [] (hs.run c))
            simpa only [List.append_nil, Notes.append_empty, Notes.append_assoc] using happ
        · exact hfresh _ (.empty name)
theorem does_fillAll (head : Token.Ref) : ∀ (wants : List Param) (es : List Expr) (hs : Holes),
    es.length = wants.length → Does (fillAll scope params wants es) hs fun ts c n =>
      Fills scope params head wants es hs ts c n
  | wants, [], hs, hlen => by
    obtain rfl : wants = [] := List.length_eq_zero_iff.1 hlen.symm
    unfold fillAll
    exact does_pure (.done head [] hs)
  | [], e :: es, hs, hlen => absurd hlen nofun
  | want :: wants, e :: es, hs, hlen => by
    unfold fillAll
    refine does_bind ((does_fill head want e hs).mono fun t c m ht => does_bind ?_)
    refine (does_fillAll head wants es (hs.run c) (Nat.succ.inj hlen)).mono fun ts d n hts => does_pure ?_
    rw [List.append_nil, Notes.append_empty]
    exact ht.cons hts
end

end Expr

/-! ### Steps -/

namespace Step

variable {scope : Scope} {thm : Rule}

theorem does_fillArgs (params : List Param) (head : Token.Ref) (wants : List Param) (es : List Expr)
    (hs : Holes) : Does (fillArgs scope params head wants es) hs fun ts c n =>
      Expr.Fills scope params head wants es hs ts c n := by
  induction wants generalizing es hs with
  | nil =>
    unfold fillArgs
    exact does_pure (.done head es hs)
  | cons want wants ih =>
    cases es with
    | nil =>
      unfold fillArgs
      refine does_bind (does_fresh (does_bind ?_))
      refine (ih [] _).mono fun ts c n hts => does_pure ?_
      rw [List.append_nil, Notes.append_empty]
      exact .missing hts
    | cons e es =>
      unfold fillArgs
      refine does_bind ((Expr.does_fill head want e hs).mono fun t c m ht => does_bind ?_)
      refine (ih es (hs.run c)).mono fun ts d n hts => does_pure ?_
      rw [List.append_nil, Notes.append_empty]
      exact ht.cons hts

theorem isName_of_rule? {name : String} {kind : Token.Kind} {rule : Rule}
    (h : rule? scope name = some (kind, rule)) : kind.isName = true := by
  unfold rule? at h
  split at h
  · cases h
    rfl
  · cases h
    rfl
  · cases h

/-- The steps of a proof, and the rules to name in place of those that are not declared, from the holes `hs`
on. -/
inductive Elaborates (scope : Scope) (thm : Rule) :
    List Expr → Holes → List Step → List Suggestion → List Call → Notes → Prop where
  | nil (hs : Holes) : Elaborates scope thm [] hs [] [] [] ∅
  | unnamed {e : Expr} {es : List Expr} {hs : Holes} {steps : List Step} {others : List Suggestion}
    {cs : List Call} {m n : Notes} :
    rule? scope e.head.text = none → m.At e.head → m.diagnostics ≠ [] →
    Elaborates scope thm es hs steps others cs n →
    Elaborates scope thm (e :: es) hs steps (nameSuggestions scope e.head ++ others) cs (m ++ n)
  | named {e : Expr} {es : List Expr} {hs : Holes} {kind : Token.Kind} {rule : Rule} {ts : List Term}
    {steps : List Step} {others : List Suggestion} {c cs : List Call} {k l m n : Notes} :
    rule? scope e.head.text = some (kind, rule) → k.At e.head →
    (k.diagnostics = [] → e.args.length = rule.params.length) →
    Expr.Fills scope thm.params e.head rule.params e.args hs ts c l → m.At e.head →
    Elaborates scope thm es (hs.run c) steps others cs n →
    Elaborates scope thm (e :: es) hs (apply thm rule e.head e.span ts :: steps) others (c ++ cs)
      (k ++ l ++ m ++ n)

theorem does_faults {α : Type} (f : Fault) (head : Token.Ref) (l : List α) (hs : Holes) :
    Does (l.forM fun _ => (Noted.fault f head : Filling Unit)) hs fun _ c n => c = [] ∧ n.At head := by
  induction l with
  | nil => exact does_pure ⟨rfl, .empty head⟩
  | cons a l ih =>
    exact does_note (ih.mono fun _ c n h => ⟨h.1, (Notes.At.fault f head).append h.2⟩)

/-- A step before others. -/
theorem does_elaborate? (e : Expr) (hs : Holes) : Does (elaborate? scope thm e) hs fun s? c m =>
    ∀ {es steps others cs n}, Elaborates scope thm es (hs.run c) steps others cs n →
      Elaborates scope thm (e :: es) hs (s?.toList ++ steps)
        (s?.elim (nameSuggestions scope e.head) (fun _ => []) ++ others) (c ++ cs) (m ++ n) := by
  unfold elaborate?
  split
  · next hrule =>
    refine does_note (does_note (does_pure fun h => .unnamed hrule ?_ nofun h))
    exact (Notes.At.fault _ e.head).append ((Notes.At.refine e.head rfl).append (.empty e.head))
  · next kind rule hrule =>
    refine does_note (does_note (does_bind ?_))
    refine (does_fillArgs thm.params e.head rule.params e.args hs).mono fun ts c l hts => does_bind ?_
    refine (does_faults _ e.head _ (hs.run c)).mono ?_
    rintro _ _ m ⟨rfl, hm⟩
    refine does_pure fun {es steps others cs n} h => ?_
    have hat := (at_checkArity e.head rule.params.length e.args.length).append
      (.refine e.head (isName_of_rule? hrule))
    rw [List.append_nil, List.append_nil] at *
    have hnamed := Elaborates.named hrule hat (fun hnil => ?_) hts hm h
    · simpa only [Notes.append_empty, Notes.append_assoc, Option.toList_some, Option.elim_some,
        List.singleton_append, List.nil_append] using hnamed
    · exact (diagnostics_checkArity (List.append_eq_nil_iff.1 hnil).1).2

theorem does_elaborateAll (es : List Expr) (hs : Holes) : Does (elaborateAll scope thm es) hs fun r c n =>
    Elaborates scope thm es hs r.1 r.2 c n := by
  induction es generalizing hs with
  | nil => exact does_pure (.nil hs)
  | cons e es ih =>
    unfold elaborateAll
    refine does_bind ((does_elaborate? e hs).mono fun s? c m hstep => does_bind ?_)
    refine (ih (hs.run c)).mono fun r d n hr => ?_
    have hall := hstep hr
    cases s? with
    | some s =>
      refine does_pure ?_
      rwa [List.append_nil, Notes.append_empty]
    | none =>
      refine does_pure ?_
      rwa [List.append_nil, Notes.append_empty]

end Step

namespace Thm

/-- The steps of a proof as elaborated, before any is taken. -/
def steps (scope : Scope) (rule : Rule) (proof : List Expr) : List Step :=
  ((Step.elaborateAll scope rule proof).run ∅).value.1.1

/-- The table of holes after the steps of a proof are elaborated. -/
def table (scope : Scope) (rule : Rule) (proof : List Expr) : HoleTable :=
  ((Step.elaborateAll scope rule proof).run ∅).value.2

/-- The holes that the steps of a proof create, in order. -/
def created (scope : Scope) (rule : Rule) (proof : List Expr) : Holes := (table scope rule proof).holes

/-- The elaboration of a proof does what `Step.Elaborates` says. -/
theorem exists_table (scope : Scope) (rule : Rule) (proof : List Expr) :
    ∃ cs, HoleTable.Always HoleTable.Allows ∅ cs ∧ HoleTable.Always HoleTable.Resolves ∅ cs ∧
      table scope rule proof = HoleTable.run ∅ cs ∧
      Step.Elaborates scope rule proof [] (steps scope rule proof)
        ((Step.elaborateAll scope rule proof).run ∅).value.1.2 cs
        ((Step.elaborateAll scope rule proof).run ∅).notes :=
  Step.does_elaborateAll proof [] ∅ .empty

/-- The holes of a proof are those that the calls create in the list. -/
theorem exists_elaborates (scope : Scope) (rule : Rule) (proof : List Expr) :
    ∃ cs, created scope rule proof = Holes.run [] cs ∧
      Step.Elaborates scope rule proof [] (steps scope rule proof)
        ((Step.elaborateAll scope rule proof).run ∅).value.1.2 cs
        ((Step.elaborateAll scope rule proof).run ∅).notes := by
  obtain ⟨cs, hallows, hresolves, htable, helab⟩ := exists_table scope rule proof
  refine ⟨cs, ?_, helab⟩
  rw [created, htable]
  exact (HoleTable.Mirrors.empty.run hallows hresolves).holes_eq

end Thm

namespace HoleTable

/-- After any calls that are allowed, the index is the number of holes created, the table has the holes that
were created, finds each by its name, and makes up names as it should. It does the same as the list of holes;
where a name is referred to is noted in both if the name is that of a hole. The elaboration of a proof makes
such calls only. -/
theorem lockstep_run :
    (∀ calls, Always Allows ∅ calls →
      (run ∅ calls).index = calls.countP (·.creates) ∧ (run ∅ calls).Tabled (madeAll ∅ calls) ∧
      (run ∅ calls).Lists (Holes.run [] calls) ∧
      (Always Resolves ∅ calls → (run ∅ calls).Mirrors (Holes.run [] calls))) ∧
    ∀ scope rule proof, ∃ calls others notes, Always Allows ∅ calls ∧ Always Resolves ∅ calls ∧
      Step.Elaborates scope rule proof [] (Thm.steps scope rule proof) others calls notes ∧
      Thm.table scope rule proof = run ∅ calls ∧ Thm.created scope rule proof = Holes.run [] calls := by
  refine ⟨fun calls hallows => ?_, fun scope rule proof => ?_⟩
  · have htabled := tabled_madeAll hallows
    refine ⟨?_, htabled, Lists.empty.run hallows, fun hresolves => Mirrors.empty.run hallows hresolves⟩
    rw [htabled.index, htabled.terms, length_madeAll]
  · obtain ⟨calls, hallows, hresolves, htable, helaborates⟩ := Thm.exists_table scope rule proof
    refine ⟨calls, _, _, hallows, hresolves, helaborates, htable, ?_⟩
    rw [Thm.created, htable]
    exact (Mirrors.empty.run hallows hresolves).holes_eq

/-- The name that is made up for the type `Wff1` looks like one of the type `Wff`. The names from number six
on are taken, as many as there are holes. -/
def runningTogether : List Call :=
  [.fresh default {} ⟨{ text := "Wff1" }, default⟩, .named { text := "?Wff6" } {} ⟨{ text := "Wff" }, default⟩,
    .named { text := "?Wff7" } {} ⟨{ text := "Wff1" }, default⟩, .useAt "?Wff6" {},
    .named { text := "?Wff8" } {} ⟨{ text := "Wff" }, default⟩,
    .named { text := "?Wff9" } {} ⟨{ text := "Wff" }, default⟩, .useAt "?Wff10" {},
    .named { text := "?Wff11" } {} ⟨{ text := "Wff" }, default⟩]

theorem lockstep_runningTogether :
    Always Allows ∅ runningTogether ∧ Always Resolves ∅ runningTogether ∧ nameAt "Wff" 10 = nameAt "Wff1" 0 ∧
    Term.keys (madeAll ∅ runningTogether) = ["?Wff10", "?Wff6", "?Wff7", "?Wff8", "?Wff9", "?Wff11"] ∧
    (run ∅ runningTogether).index = 6 ∧ (run ∅ runningTogether).Tabled (madeAll ∅ runningTogether) ∧
    (run ∅ runningTogether).Mirrors (Holes.run [] runningTogether) ∧
    (run ∅ runningTogether).Probes "Wff" 12 := by
  have hallows : Always Allows ∅ runningTogether := by decide +kernel
  have hresolves : Always Resolves ∅ runningTogether := by decide +kernel
  obtain ⟨hindex, htabled, -, hmirrors⟩ := lockstep_run.1 runningTogether hallows
  obtain ⟨n, hprobes⟩ := htabled.probes "Wff"
  have hname : (run ∅ runningTogether).nextName "Wff" = nameAt "Wff" 12 := by decide +kernel
  have hn : n = 12 := nameAt_inj (hprobes.name.symm.trans hname)
  refine ⟨hallows, hresolves, by decide +kernel, by decide +kernel, hindex, htabled, hmirrors hresolves, ?_⟩
  exact hn ▸ hprobes

end HoleTable

end Sequitur
