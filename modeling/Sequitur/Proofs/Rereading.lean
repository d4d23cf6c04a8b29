import Sequitur.Proofs.Spelling

/-!
# Reading printed declarations

The lexemes of a printed declaration are read without a fault, and the block that is read says what
the declaration says, at no place (`Decl.block`). A printed text gives the blocks of its declarations,
in order (`Block.clean_readAll_renderAll`). The lemmas about the readers are about the parts of a block,
which need not come from a declaration.
-/

namespace Sequitur

open Placed (relocate)
open Lexeme

/-! ### Computations that find nothing wrong -/

namespace Noted

variable {α β : Type}

/-- A value is reached, and nothing is found wrong on the way. -/
def Clean (x : Noted α) (a : α) : Prop := x.value = a ∧ x.notes.diagnostics = []

theorem clean_pure (a : α) : (pure a : Noted α).Clean a := ⟨rfl, rfl⟩

theorem clean_refine (r : Token.Ref) (k : Token.Kind) : (refine r k).Clean () := ⟨rfl, rfl⟩

theorem clean_bind_iff {x : Noted α} {f : α → Noted β} {b : β} :
    (x >>= f).Clean b ↔ x.notes.diagnostics = [] ∧ (f x.value).Clean b := by
  unfold Clean
  rw [value_bind, notes_bind, Notes.diagnostics_append, List.append_eq_nil_iff]
  constructor
  · rintro ⟨hv, hx, hf⟩
    exact ⟨hx, hv, hf⟩
  · rintro ⟨hx, hv, hf⟩
    exact ⟨hv, hx, hf⟩

theorem Clean.bind {x : Noted α} {a : α} {f : α → Noted β} {b : β} (hx : x.Clean a) (hf : (f a).Clean b) :
    (x >>= f).Clean b := by
  rw [clean_bind_iff, hx.1]
  exact ⟨hx.2, hf⟩

theorem clean_forM {f : α → Noted Unit} {as : List α} (h : ∀ a ∈ as, (f a).Clean ()) :
    (as.forM f).Clean () := by
  induction as with
  | nil => exact clean_pure ()
  | cons a as ih =>
    obtain ⟨ha, has⟩ := List.forall_mem_cons.1 h
    exact ha.bind (ih has)

theorem clean_foldlM_append {f : β → α → Noted β} {b c d : β} {as bs : List α} (ha : (as.foldlM f b).Clean c)
    (hb : (bs.foldlM f c).Clean d) : ((as ++ bs).foldlM f b).Clean d := by
  rw [List.foldlM_append]
  exact ha.bind hb

theorem clean_foldlM_cons {f : β → α → Noted β} {b c d : β} {a : α} {as : List α} (ha : (f b a).Clean c)
    (has : (as.foldlM f c).Clean d) : ((a :: as).foldlM f b).Clean d := by
  rw [List.foldlM_cons]
  exact ha.bind has

/-- A value is reached, and just these faults are found on the way. -/
def Reports (x : Noted α) (a : α) (fs : List Fault) : Prop :=
  x.value = a ∧ x.notes.diagnostics.map (·.fault) = fs

theorem reports_nil_iff {x : Noted α} {a : α} : x.Reports a [] ↔ x.Clean a := by
  rw [Reports, Clean, List.map_eq_nil_iff]

theorem reports_fault (f : Fault) (r : Token.Ref) : (fault f r).Reports () [f] := ⟨rfl, rfl⟩

theorem Reports.bind {x : Noted α} {a : α} {f : α → Noted β} {b : β} {fs gs : List Fault}
    (hx : x.Reports a fs) (hf : (f a).Reports b gs) : (x >>= f).Reports b (fs ++ gs) := by
  obtain ⟨rfl, rfl⟩ := hx
  obtain ⟨rfl, rfl⟩ := hf
  exact ⟨rfl, List.map_append⟩

theorem Clean.bind_reports {x : Noted α} {a : α} {f : α → Noted β} {b : β} {gs : List Fault}
    (hx : x.Clean a) (hf : (f a).Reports b gs) : (x >>= f).Reports b gs :=
  (reports_nil_iff.2 hx).bind hf

theorem Reports.bind_clean {x : Noted α} {a : α} {f : α → Noted β} {b : β} {fs : List Fault}
    (hx : x.Reports a fs) (hf : (f a).Clean b) : (x >>= f).Reports b fs := by
  have := hx.bind (reports_nil_iff.2 hf)
  rwa [List.append_nil] at this

/-- One fault that is found if something is missing. -/
theorem reports_missing {c : Prop} [Decidable c] (f : Fault) (r : Token.Ref) {x : Noted β} {b : β}
    (hx : x.Clean b) :
    (if c then fault f r >>= fun _ => x else x).Reports b (if c then [f] else []) := by
  split
  · exact (reports_fault f r).bind_clean hx
  · exact reports_nil_iff.2 hx

end Noted

open Noted

/-! ### Expressions -/

mutual
/-- The expression that a tree spells, at no place. -/
def Tree.expr : Tree → Expr
  | .node name children => ⟨.named name, exprs children, {}⟩
def Tree.exprs : List Tree → List Expr
  | [] => []
  | t :: ts => expr t :: exprs ts
end

theorem Tree.exprs_eq_map (ts : List Tree) : exprs ts = ts.map expr := by
  induction ts with
  | nil => rfl
  | cons t ts ih => rw [exprs, ih, List.map_cons]

theorem Tree.expr_node (name : String) (ts : List Tree) :
    (node name ts).expr = ⟨.named name, ts.map expr, {}⟩ := by
  rw [expr, exprs_eq_map]

namespace Expr

/-- What can follow an expression: not an opening parenthesis. -/
def NotCall (ls : List Lexeme) : Prop := ∀ l ∈ ls.head?, l.isSeparator '(' = false

theorem notCall_cons {l : Lexeme} {ls : List Lexeme} (h : l.isSeparator '(' = false) : NotCall (l :: ls) := by
  rintro m ⟨⟩
  exact h

theorem notCall_lexemesRest (ts : List Tree) (ls : List Lexeme) : NotCall (Tree.lexemesRest ts ++ ls) := by
  cases ts with
  | nil => exact notCall_cons rfl
  | cons t ts => exact notCall_cons rfl

theorem notCall_trees (ts : List Tree) : NotCall (ts.flatMap Tree.lexemes) := by
  cases ts with
  | nil => exact fun l hl => absurd hl (by simp)
  | cons t ts =>
    obtain ⟨name, children⟩ := t
    cases children with
    | nil => exact notCall_cons rfl
    | cons c cs => exact notCall_cons rfl

/-- The arguments of a call are on the stack, the last one on top. -/
theorem closeCall_done (close head : Token.Ref) (es : List Expr) (stack : List Item) (args : List Expr) :
    closeCall close (es.map .done ++ .opened head :: stack) args =
      some (⟨head, es.reverse ++ args, head.span.through close.span⟩, stack) := by
  induction es generalizing args with
  | nil => rfl
  | cons e es ih =>
    rw [List.map_cons, List.cons_append, closeCall, ih, List.reverse_cons, List.append_assoc]
    rfl

mutual
/-- The lexemes of a tree put its expression on the stack. -/
theorem clean_shift_tree : ∀ (t : Tree) {stack items : List Item} {ls : List Lexeme}, NotCall ls →
    (shift (.done t.expr :: stack) ls).Clean items → (shift stack (t.lexemes ++ ls)).Clean items
  | .node name [], stack, items, ls, hls, h => by
    rw [Tree.lexemes, List.singleton_append]
    cases ls with
    | nil =>
      rw [shift_word_singleton (l := word name) rfl]
      exact h
    | cons next rest =>
      rw [shift_word rfl (Bool.eq_false_iff.1 (hls next rfl))]
      exact h
  | .node name (t :: ts), stack, items, ls, _, h => by
    rw [Tree.lexemes, List.cons_append, List.cons_append, shift_call rfl rfl, List.append_assoc]
    exact clean_shift_tree t (notCall_lexemesRest ts ls) (clean_shift_rest ts name [t] h)
theorem clean_shift_rest : ∀ (ts : List Tree) (name : String) (us : List Tree) {stack items : List Item}
    {ls : List Lexeme}, (shift (.done (Tree.node name (us ++ ts)).expr :: stack) ls).Clean items →
    (shift ((us.map Tree.expr).reverse.map .done ++ .opened (.named name) :: stack)
      (Tree.lexemesRest ts ++ ls)).Clean items
  | [], name, us, stack, items, ls, h => by
    have hclose := closeCall_done (separator ')').ref (.named name) (us.map Tree.expr).reverse stack []
    rw [List.reverse_reverse, List.append_nil] at hclose
    rw [Tree.lexemesRest, List.singleton_append, shift_close (by simp) (by simp) hclose]
    rw [List.append_nil, Tree.expr_node] at h
    exact (clean_refine ..).bind h
  | t :: ts, name, us, stack, items, ls, h => by
    rw [Tree.lexemesRest, List.cons_append, List.append_assoc,
      shift_comma (by simp) (by simp) (by simp)]
    refine clean_shift_tree t (notCall_lexemesRest ts ls) ?_
    have hrest := clean_shift_rest ts name (us ++ [t]) (by rwa [List.append_assoc])
    rwa [List.map_append, List.reverse_append, List.map_append] at hrest
end

theorem clean_shift_trees (ts : List Tree) (stack : List Item) :
    (shift stack (ts.flatMap Tree.lexemes)).Clean ((ts.map Tree.expr).reverse.map .done ++ stack) := by
  induction ts generalizing stack with
  | nil => exact clean_pure stack
  | cons t ts ih =>
    rw [List.flatMap_cons]
    refine clean_shift_tree t (notCall_trees ts) ?_
    have hrest := ih (.done t.expr :: stack)
    simpa using hrest

theorem clean_settle (es : List Expr) : (settle (es.map .done)).Clean es := by
  induction es with
  | nil => exact clean_pure []
  | cons e es ih => exact ih.bind (clean_pure (e :: es))

theorem clean_readAll (ts : List Tree) : (readAll (ts.flatMap Tree.lexemes)).Clean (ts.map Tree.expr) := by
  refine (clean_shift_trees ts []).bind ?_
  rw [List.append_nil, ← List.map_reverse, List.reverse_reverse]
  exact clean_settle _

theorem clean_readAll_lexemes (t : Tree) : (readAll t.lexemes).Clean [t.expr] := by
  have hread := clean_readAll [t]
  rwa [List.flatMap_singleton] at hread

end Expr

namespace Block

/-! ### Parameters -/

theorem clean_readParams (ps : List Param) :
    (readParams ([separator ','].intercalate (ps.map Param.lexemes))).Clean (relocate .blank ps) := by
  induction ps with
  | nil =>
    rw [List.map_nil, List.intercalate_nil, readParams.eq_def]
    exact clean_pure []
  | cons p ps ih =>
    cases ps with
    | nil =>
      rw [List.map_singleton, List.intercalate_singleton, readParams.eq_def]
      exact (clean_refine ..).bind ((clean_refine ..).bind (clean_pure _))
    | cons q qs =>
      rw [List.map_cons, List.map_cons, List.intercalate_cons_cons, ← List.map_cons, readParams.eq_def]
      exact (clean_refine ..).bind ((clean_refine ..).bind (ih.bind (clean_pure _)))

theorem forall_mem_intercalate {P : Lexeme → Prop} {sep : List Lexeme} {lss : List (List Lexeme)}
    (hsep : ∀ l ∈ sep, P l) (h : ∀ ls ∈ lss, ∀ l ∈ ls, P l) : ∀ l ∈ sep.intercalate lss, P l := by
  induction lss with
  | nil => simp
  | cons ls lss ih =>
    obtain ⟨hls, hlss⟩ := List.forall_mem_cons.1 h
    cases lss with
    | nil => simpa using hls
    | cons ms mss =>
      rw [List.intercalate_cons_cons]
      intro l hl
      rcases List.mem_append.1 hl with hl | hl
      · exact (List.mem_append.1 hl).elim (hls l) (hsep l)
      · exact ih hlss l hl

/-- A parameter list after its opening parenthesis. -/
theorem clean_readParamList (paren : Token.Ref) (ps : List Param) (rest : List Lexeme) :
    (readParamList paren ([separator ','].intercalate (ps.map Param.lexemes) ++ separator ')' :: rest)).Clean
      ⟨relocate .blank ps, true, .named ")", rest⟩ := by
  have hinside : ∀ l ∈ [separator ','].intercalate (ps.map Param.lexemes),
      (l.isWord || l.isSeparator ',') = true := by
    refine forall_mem_intercalate (by simp) fun ls hls l hl => ?_
    obtain ⟨p, -, rfl⟩ := List.mem_map.1 hls
    rcases List.mem_cons.1 hl with rfl | hl
    · rfl
    · rw [List.mem_singleton.1 hl]
      rfl
  unfold readParamList
  dsimp only
  rw [List.takeWhile_append_of_pos hinside, List.dropWhile_append_of_pos hinside,
    List.takeWhile_cons_of_neg (by simp), List.dropWhile_cons_of_neg (by simp), List.append_nil]
  exact (clean_readParams ps).bind (clean_pure _)

/-! ### Distinctness conditions -/

variable {params : List Param}

theorem clean_readGroupLexeme_word {x : String} (hx : params.any (·.name.text == x) = true)
    {group : List Token.Ref} (hnew : group.any (·.text == x) = false) (groups : List (List Token.Ref)) :
    (readGroupLexeme params (group :: groups) (word x)).Clean ((.named x :: group) :: groups) := by
  have hsep : ¬(word x).isSeparator '(' = true := by simp
  have hx : params.any (·.name.text == (word x).ref.text) = true := hx
  have hnew : ¬group.any (·.text == (word x).ref.text) = true := Bool.eq_false_iff.1 hnew
  unfold readGroupLexeme
  rw [if_neg hsep, if_pos (isWord_word x), if_pos hx]
  refine (clean_refine ..).bind ?_
  dsimp only
  rw [if_neg hnew]
  exact clean_pure _

/-- The names of one group, without parentheses. -/
theorem clean_readNames {xs : List String} (hin : ∀ x ∈ xs, params.any (·.name.text == x) = true)
    (hnodup : xs.Nodup) {group : List Token.Ref} (hnew : ∀ x ∈ xs, group.any (·.text == x) = false)
    (groups : List (List Token.Ref)) :
    (([separator ','].intercalate (xs.map fun x => [word x])).foldlM (readGroupLexeme params)
      (group :: groups)).Clean (((xs.map .named).reverse ++ group) :: groups) := by
  induction xs generalizing group with
  | nil => exact clean_pure _
  | cons x xs ih =>
    obtain ⟨hx, hxs⟩ := List.forall_mem_cons.1 hin
    obtain ⟨hnewx, hnewxs⟩ := List.forall_mem_cons.1 hnew
    obtain ⟨hnot, hnodup⟩ := List.nodup_cons.1 hnodup
    have hword := clean_readGroupLexeme_word hx hnewx groups
    have hnext : ∀ y ∈ xs, (Token.Ref.named x :: group).any (·.text == y) = false := by
      intro y hy
      rw [List.any_cons, hnewxs y hy, Bool.or_false]
      refine beq_eq_false_iff_ne.2 ?_
      rintro rfl
      exact hnot hy
    have hrest := ih hxs hnodup hnext
    have hresult : (List.map Token.Ref.named (x :: xs)).reverse ++ group =
        (xs.map .named).reverse ++ .named x :: group := by simp
    rw [hresult]
    cases xs with
    | nil =>
      rw [List.map_singleton, List.intercalate_singleton]
      exact clean_foldlM_cons hword (clean_pure _)
    | cons y ys =>
      rw [List.map_cons, List.map_cons, List.intercalate_cons_cons]
      exact clean_foldlM_cons hword (clean_foldlM_cons (clean_pure _) hrest)

theorem clean_readGroup {g : List String} (hin : ∀ x ∈ g, params.any (·.name.text == x) = true)
    (hnodup : g.Nodup) (groups : List (List Token.Ref)) :
    ((Rule.groupLexemes g).foldlM (readGroupLexeme params) groups).Clean ((g.map .named).reverse :: groups) := by
  have hnames := @clean_readNames params g hin hnodup [] (fun x _ => rfl) groups
  rw [List.append_nil] at hnames
  refine clean_foldlM_cons (clean_pure _) (clean_foldlM_append hnames ?_)
  exact clean_foldlM_cons (clean_pure _) (clean_pure _)

theorem clean_readGroups {gs : List (List String)}
    (h : ∀ g ∈ gs, 2 ≤ g.length ∧ g.Nodup ∧ ∀ x ∈ g, params.any (·.name.text == x) = true) :
    (readGroups params (gs.flatMap Rule.groupLexemes)).Clean (gs.map (·.map .named)) := by
  -- the latest group comes first, the latest name of each first
  have hfold : ∀ (gs' : List (List String)) acc, gs' ⊆ gs →
      ((gs'.flatMap Rule.groupLexemes).foldlM (readGroupLexeme params) acc).Clean
        ((gs'.map fun g => (g.map Token.Ref.named).reverse).reverse ++ acc) := by
    intro gs' acc hsub
    induction gs' generalizing acc with
    | nil => exact clean_pure acc
    | cons g gs' ih =>
      obtain ⟨hg, hsub⟩ := List.cons_subset.1 hsub
      obtain ⟨-, hnodup, hin⟩ := h g hg
      have hrest := ih ((g.map .named).reverse :: acc) hsub
      rw [List.flatMap_cons, List.map_cons, List.reverse_cons, List.append_assoc]
      exact clean_foldlM_append (clean_readGroup hin hnodup acc) hrest
  have hlength : ∀ g ∈ gs.map (·.map Token.Ref.named), 1 < g.length := by
    intro g hg
    obtain ⟨xs, hxs, rfl⟩ := List.mem_map.1 hg
    rw [List.length_map]
    exact (h xs hxs).1
  refine (hfold gs [] (List.Subset.refl gs)).bind ?_
  have hgroups :
      (((gs.map fun g : List String => (g.map Token.Ref.named).reverse).reverse ++ []).map List.reverse).reverse =
        gs.map (·.map .named) := by
    simp [Function.comp_def]
  rw [hgroups]
  refine (clean_forM fun g hg => ?_).bind ?_
  · have := hlength g hg
    cases g with
    | nil => exact clean_pure ()
    | cons x g =>
      cases g with
      | nil => simp at this
      | cons y g => exact clean_pure ()
  · rw [List.filter_eq_self.2 fun g hg => decide_eq_true (hlength g hg)]
    exact clean_pure _

end Block

/-! ### Statements -/

/-- Neither a keyword nor a closing brace. -/
def Lexeme.Plain (l : Lexeme) : Prop := l.keyword? = none ∧ l.isSeparator '}' = false

theorem Lexeme.plain_word (s : String) : (word s).Plain := ⟨rfl, rfl⟩

/-- A statement of a rule, with the keyword before it. -/
def Lexeme.IsStatement (s : Keyword × List Lexeme) : Prop :=
  s.1.startsStatement = true ∧ ∀ l ∈ s.2, l.Plain

mutual
theorem Tree.plain_lexemes : ∀ t : Tree, ∀ l ∈ t.lexemes, l.Plain
  | .node name [] => by
    rw [lexemes, List.forall_mem_singleton]
    exact plain_word name
  | .node name (t :: ts) => by
    rw [lexemes, List.forall_mem_cons, List.forall_mem_cons, List.forall_mem_append]
    exact ⟨plain_word name, ⟨rfl, rfl⟩, plain_lexemes t, plain_lexemesRest ts⟩
theorem Tree.plain_lexemesRest : ∀ ts : List Tree, ∀ l ∈ lexemesRest ts, l.Plain
  | [] => by
    rw [lexemesRest, List.forall_mem_singleton]
    exact ⟨rfl, rfl⟩
  | t :: ts => by
    rw [lexemesRest, List.forall_mem_cons, List.forall_mem_append]
    exact ⟨⟨rfl, rfl⟩, plain_lexemes t, plain_lexemesRest ts⟩
end

theorem Rule.plain_groupLexemes (g : List String) : ∀ l ∈ groupLexemes g, l.Plain := by
  rw [groupLexemes, List.forall_mem_cons, List.forall_mem_append, List.forall_mem_singleton]
  refine ⟨⟨rfl, rfl⟩, Block.forall_mem_intercalate ?_ fun ls hls => ?_, ⟨rfl, rfl⟩⟩
  · rw [List.forall_mem_singleton]
    exact ⟨rfl, rfl⟩
  · obtain ⟨x, -, rfl⟩ := List.mem_map.1 hls
    rw [List.forall_mem_singleton]
    exact plain_word x

theorem Rule.isStatement_of_mem {r : Rule} {s : Keyword × List Lexeme} (hs : s ∈ r.statements) :
    IsStatement s := by
  unfold statements at hs
  rcases List.mem_append.1 hs with hs | hs
  · obtain ⟨t, -, rfl⟩ := List.mem_map.1 hs
    exact ⟨rfl, t.tree.plain_lexemes⟩
  rcases List.mem_append.1 hs with hs | hs
  · obtain ⟨t, -, rfl⟩ := List.mem_map.1 hs
    exact ⟨rfl, t.tree.plain_lexemes⟩
  · split at hs
    · exact absurd hs List.not_mem_nil
    · rw [List.mem_singleton.1 hs]
      refine ⟨rfl, fun l hl => ?_⟩
      obtain ⟨g, -, hl⟩ := List.mem_flatMap.1 hl
      exact plain_groupLexemes g l hl

namespace Section

variable {heads : Keyword → Bool}

theorem split_append_of_none {ls : List Lexeme} (h : ∀ l ∈ ls, ∀ k, l.keyword? = some k → heads k = false)
    (ms : List Lexeme) : split heads (ls ++ ms) = (ls ++ (split heads ms).1, (split heads ms).2) := by
  induction ls with
  | nil => rfl
  | cons l ls ih =>
    obtain ⟨hl, hls⟩ := List.forall_mem_cons.1 h
    rw [List.cons_append, split_other hl, ih hls]
    rfl

/-- A keyword and the lexemes after it, at no place. -/
def bare (s : Keyword × List Lexeme) : Section := ⟨s.1, .named s.1.text, s.2⟩

/-- Keywords, each with lexemes after it that start no section, are cut into just that. -/
theorem split_flatMap {ss : List (Keyword × List Lexeme)} (hheads : ∀ s ∈ ss, heads s.1 = true)
    (hbody : ∀ s ∈ ss, ∀ l ∈ s.2, ∀ k, l.keyword? = some k → heads k = false) :
    split heads (ss.flatMap fun s => Lexeme.keyword s.1 :: s.2) =
      ([], ss.map bare) := by
  induction ss with
  | nil => rfl
  | cons s ss ih =>
    obtain ⟨hs, hss⟩ := List.forall_mem_cons.1 hheads
    obtain ⟨hl, hls⟩ := List.forall_mem_cons.1 hbody
    rw [List.flatMap_cons, List.cons_append, split_head (keyword?_keyword s.1) hs, split_append_of_none hl,
      ih hss hls, List.append_nil]
    rfl

end Section

theorem Param.any_relocate_of_exists {params : List Param} {x : String} (h : ∃ p ∈ params, p.name.text = x) :
    (relocate Relocation.blank params).any (·.name.text == x) = true := by
  obtain ⟨p, hp, he⟩ := h
  rw [any_relocate, List.any_eq_true]
  exact ⟨p, hp, beq_iff_eq.2 he⟩

/-- Names without their places. -/
theorem Token.Ref.map_named (gs : List (List Token.Ref)) :
    (gs.map (·.map (·.text))).map (·.map named) = relocate .blank gs := by
  rw [List.map_map, relocate_eq_map]
  refine List.map_congr_left fun g _ => ?_
  rw [Function.comp_apply, List.map_map]
  rfl

/-- The block that a printed rule is read as, at no place. -/
def Rule.block (k : Keyword) (r : Rule) : RuleBlock :=
  ⟨.named k.text, .named r.name.text, relocate .blank r.params, r.targets.map (·.tree.expr),
    r.assumptions.map (·.tree.expr), r.groups.map (·.map .named), {}⟩

namespace Block

variable {params : List Param}

/-- Statements of one kind, each of which adds to those before it. -/
theorem clean_readStatements {α : Type} {k : Keyword} {lexemes : α → List Lexeme}
    {add : Body → List α → Body} (hnil : ∀ body, add body [] = body)
    (hcons : ∀ body a as, add (add body [a]) as = add body (a :: as)) {as : List α}
    (hread : ∀ body, ∀ a ∈ as, (readStatement params body (.bare (k, lexemes a))).Clean (add body [a]))
    (body : Body) :
    ((as.map fun a => Section.bare (k, lexemes a)).foldlM (readStatement params) body).Clean (add body as) := by
  induction as generalizing body with
  | nil =>
    rw [List.map_nil, hnil]
    exact clean_pure body
  | cons a as ih =>
    have hrest := ih (fun body b hb => hread body b (List.mem_cons_of_mem _ hb)) (add body [a])
    rw [hcons] at hrest
    exact clean_foldlM_cons (hread body a (List.mem_cons_self ..)) hrest

theorem clean_readTargets (ts : List Tree) (body : Body) :
    ((ts.map fun t => Section.bare (.target, t.lexemes)).foldlM
      (readStatement params) body).Clean { body with targets := body.targets ++ ts.map Tree.expr } :=
  @clean_readStatements _ _ .target Tree.lexemes
    (fun body ts => { body with targets := body.targets ++ ts.map Tree.expr })
    (fun body => by simp) (fun body t ts => by simp) ts
    (fun body t _ => (Expr.clean_readAll_lexemes t).bind (clean_pure _)) body

theorem clean_readAssumptions (ts : List Tree) (body : Body) :
    ((ts.map fun t => Section.bare (.assume, t.lexemes)).foldlM
      (readStatement params) body).Clean { body with assumptions := body.assumptions ++ ts.map Tree.expr } :=
  @clean_readStatements _ _ .assume Tree.lexemes
    (fun body ts => { body with assumptions := body.assumptions ++ ts.map Tree.expr })
    (fun body => by simp) (fun body t ts => by simp) ts
    (fun body t _ => (Expr.clean_readAll_lexemes t).bind (clean_pure _)) body

theorem clean_readBody {ss : List (Keyword × List Lexeme)}
    (hss : ∀ s ∈ ss, IsStatement s) {body : Body}
    (h : ((ss.map Section.bare).foldlM (readStatement params) {}).Clean body) :
    (readBody params (ss.flatMap fun s => Lexeme.keyword s.1 :: s.2)).Clean body := by
  have hsplit := @Section.split_flatMap Keyword.startsStatement ss (fun s hs => (hss s hs).1)
    (fun s hs l hl k hk => by
      rw [((hss s hs).2 l hl).1] at hk
      cases hk)
  unfold readBody
  rw [hsplit]
  exact (clean_pure ()).bind h

theorem clean_readStatements_rule {r : Rule} (h : r.Printable) :
    ((r.statements.map Section.bare).foldlM
      (readStatement (relocate .blank r.params)) {}).Clean
      ⟨r.targets.map (·.tree.expr), r.assumptions.map (·.tree.expr), r.groups.map (·.map .named)⟩ := by
  have hgroups : ∀ g ∈ r.groups, 2 ≤ g.length ∧ g.Nodup ∧
      ∀ x ∈ g, (relocate Relocation.blank r.params).any (·.name.text == x) = true := by
    intro g hg
    obtain ⟨hlength, hnodup, hsub⟩ := h.groups g hg
    exact ⟨hlength, hnodup, fun x hx => Param.any_relocate_of_exists (List.mem_map.1 (hsub hx))⟩
  have htargets := @clean_readTargets (relocate .blank r.params) (r.targets.map (·.tree)) {}
  have hassumptions := @clean_readAssumptions (relocate .blank r.params) (r.assumptions.map (·.tree))
    ⟨r.targets.map (·.tree.expr), [], []⟩
  rw [List.map_map, List.map_map] at htargets hassumptions
  simp only [Rule.statements, List.map_append, List.map_map]
  refine clean_foldlM_append htargets (clean_foldlM_append hassumptions ?_)
  cases hg : r.groups with
  | nil => exact clean_pure _
  | cons g gs =>
    rw [hg] at hgroups
    exact clean_foldlM_cons ((clean_readGroups hgroups).bind (clean_pure _)) (clean_pure _)

/-! ### Rules -/

theorem cutFirst_append {p : Lexeme → Bool} {before : List Lexeme} (hb : ∀ l ∈ before, p l = false)
    {m : Lexeme} (hm : p m = true) (after : List Lexeme) :
    cutFirst p (before ++ m :: after) = some (before, m, after) := by
  induction before with
  | nil => exact if_pos hm
  | cons l before ih =>
    obtain ⟨hl, hb⟩ := List.forall_mem_cons.1 hb
    rw [List.cons_append, cutFirst, ih hb, hl]
    rfl

theorem cutLast_append {p : Lexeme → Bool} (before : List Lexeme) {m : Lexeme} (hm : p m = true)
    {after : List Lexeme} (hafter : ∀ l ∈ after, p l = false) :
    cutLast p (before ++ m :: after) = some (before, m, after) := by
  have hnone : cutLast p after = none := by
    by_contra hne
    obtain ⟨⟨before', m', after'⟩, hcut⟩ := Option.ne_none_iff_exists'.1 hne
    obtain ⟨rfl, hm', -⟩ := cutLast_eq_some hcut
    simp [hafter m'] at hm'
  induction before with
  | nil => simp [cutLast, hnone, hm]
  | cons l before ih => rw [List.cons_append, cutLast, ih]

/-- What stands between braces, if no brace is among it. -/
theorem clean_readBraced {inside : List Lexeme} (h : ∀ l ∈ inside, l.isSeparator '}' = false)
    (rest : List Lexeme) :
    (readBraced (separator '{') (inside ++ separator '}' :: rest)).Clean
      ⟨inside, .named "\x7d", rest⟩ := by
  have hcut := cutFirst_append (m := separator '}') h (by simp) rest
  unfold readBraced
  dsimp only
  rw [show (separator '{').isSeparator '{' = true from rfl, if_pos rfl, hcut]
  exact clean_pure _

theorem clean_readRuleParams (name : Token.Ref) (ps : List Param) (rest : List Lexeme) :
    (readRuleParams name (separator '(' ::
      ([separator ','].intercalate (ps.map Param.lexemes) ++ separator ')' :: rest))).Clean
      ⟨relocate .blank ps, true, .named ")", rest⟩ := by
  unfold readRuleParams
  dsimp only
  rw [if_pos (by simp)]
  exact (clean_readParamList _ ps rest).bind (clean_pure _)

/-- A rule is read from its parts; all that can be missing is a target. -/
theorem reports_readRule (k : Keyword) (kind : Token.Kind) (name : String) {ps : List Param}
    {ss : List (Keyword × List Lexeme)} (hss : ∀ s ∈ ss, IsStatement s)
    {body : Body} (hbody : ((ss.map Section.bare).foldlM
      (readStatement (relocate .blank ps)) {}).Clean body) (rest : List Lexeme) :
    (readRule (.named k.text) kind (ruleLexemes name ps ss ++ rest)).Reports
      (some (⟨.named k.text, .named name, relocate .blank ps, body.targets, body.assumptions, body.distinct, {}⟩,
        rest))
      (if body.targets.isEmpty then [.targetMissing] else []) := by
  have hinside : ∀ l ∈ ss.flatMap (fun s => Lexeme.keyword s.1 :: s.2), l.isSeparator '}' = false := by
    intro l hl
    obtain ⟨s, hs, hl⟩ := List.mem_flatMap.1 hl
    rcases List.mem_cons.1 hl with rfl | hl
    · rfl
    · exact ((hss s hs).2 l hl).2
  have hlexemes : ruleLexemes name ps ss ++ rest = word name :: separator '(' ::
      ([separator ','].intercalate (ps.map Param.lexemes) ++ separator ')' :: separator '{' ::
        (ss.flatMap (fun s => Lexeme.keyword s.1 :: s.2) ++ separator '}' :: rest)) := by
    simp [ruleLexemes, Param.listLexemes]
  rw [hlexemes]
  unfold readRule
  dsimp only
  rw [if_pos (isWord_word _)]
  refine (clean_refine ..).bind_reports ((clean_readRuleParams _ ps _).bind_reports ?_)
  refine (clean_readBraced hinside rest).bind_reports ((clean_readBody hss hbody).bind_reports ?_)
  exact reports_missing _ _ (clean_pure _)

theorem clean_readRule (k : Keyword) (kind : Token.Kind) {r : Rule} (h : r.Printable) (rest : List Lexeme) :
    (readRule (.named k.text) kind (r.lexemes ++ rest)).Clean (some (r.block k, rest)) := by
  have hread := reports_readRule k kind r.name.text (fun s => Rule.isStatement_of_mem)
    (clean_readStatements_rule h) rest
  rw [List.isEmpty_map, if_neg (mt List.isEmpty_iff.1 h.targets_ne_nil), reports_nil_iff] at hread
  exact hread

theorem clean_readAxiom {r : Rule} (h : r.Printable) :
    (readAxiom (.named Keyword.axiomDecl.text) r.lexemes).Clean (some (.axm (r.block .axiomDecl))) := by
  have hrule := clean_readRule .axiomDecl .axiomName h []
  rw [List.append_nil] at hrule
  exact hrule.bind ((clean_pure ()).bind (clean_pure _))

end Block

/-! ### Declarations -/

def TermDecl.block (d : TermDecl) : TermBlock :=
  ⟨.named Keyword.termDecl.text, .named d.type.text, .named d.name.text, relocate .blank d.params,
    d.content.map .named, {}⟩

/-- The block that a printed declaration is read as, at no place. -/
def Decl.block : Decl → Block
  | .type d => .types ⟨.named Keyword.typeDecl.text, [.named d.name.text], {}⟩
  | .term d => .term d.block
  | .axm r => .axm (r.block .axiomDecl)
  | .thm t => .thm ⟨t.rule.block .thmDecl, t.proof.map (·.tree.expr)⟩

namespace Block

theorem clean_readProof (last : Option Token.Ref) (ts : List Tree) :
    (readProof last (separator '{' :: (ts.flatMap Tree.lexemes ++ [separator '}']))).Clean
      (ts.map Tree.expr, some (.named "\x7d"), []) := by
  have hinside : ∀ l ∈ ts.flatMap Tree.lexemes, l.isSeparator '}' = false := by
    intro l hl
    obtain ⟨t, -, hl⟩ := List.mem_flatMap.1 hl
    exact (t.plain_lexemes l hl).2
  refine (clean_readBraced hinside []).bind ?_
  exact (Expr.clean_readAll ts).bind (clean_pure _)

theorem clean_readThm {t : Thm} (h : t.rule.Printable) :
    (readThm (.named Keyword.thmDecl.text) t.lexemes).Clean (some (Decl.block (.thm t))) := by
  have hproof := clean_readProof (some (.named "=")) (t.proof.map (·.tree))
  rw [List.flatMap_map, List.map_map] at hproof
  refine (clean_readRule .thmDecl .thmName h _).bind ((clean_pure _).bind (hproof.bind ?_))
  exact (clean_pure ()).bind (clean_pure _)

theorem clean_readForm (last : Token.Ref) (ls : List Lexeme) :
    (readForm last (separator '{' :: (ls ++ [separator '}']))).Clean
      (ls.map (·.ref), .named "\x7d") := by
  unfold readForm
  dsimp only
  rw [if_pos (by simp), cutLast_append ls (by simp) (List.forall_mem_nil _)]
  exact clean_pure _

/-- Parentheses are there only if there are parameters. -/
theorem clean_readTermParams (name : Token.Ref) (ps : List Param) (ls : List Lexeme) :
    ∃ last, (readTermParams name ((if ps.isEmpty then [] else Param.listLexemes ps) ++
      separator '{' :: ls)).Clean (relocate .blank ps, last, separator '{' :: ls) := by
  cases ps with
  | nil => exact ⟨name, clean_pure _⟩
  | cons p ps =>
    refine ⟨.named ")", ?_⟩
    have hlexemes : (if (p :: ps).isEmpty then [] else Param.listLexemes (p :: ps)) ++ separator '{' :: ls =
        separator '(' :: ([separator ','].intercalate ((p :: ps).map Param.lexemes) ++
          separator ')' :: separator '{' :: ls) := by
      simp [Param.listLexemes]
    rw [hlexemes]
    unfold readTermParams
    dsimp only
    rw [if_pos (by simp)]
    exact (clean_readParamList _ (p :: ps) _).bind (clean_pure _)

theorem clean_readTerm (type name : String) (ps : List Param) (form : List Lexeme) :
    (readTerm (.named Keyword.termDecl.text) (termLexemes type name ps form)).Clean
      (some (.term ⟨.named Keyword.termDecl.text, .named type, .named name, relocate .blank ps,
        if form.isEmpty then [.named name] else form.map (·.ref), {}⟩)) := by
  obtain ⟨last, hparams⟩ := clean_readTermParams (.named name) ps (form ++ [separator '}'])
  unfold readTerm termLexemes
  dsimp only
  rw [if_pos (isWord_word _)]
  refine (clean_refine ..).bind ?_
  rw [if_pos (isWord_word _)]
  refine hparams.bind ((clean_readForm last _).bind ?_)
  rw [← List.isEmpty_map (f := Lexeme.ref)]
  dsimp only
  split
  · exact (clean_refine ..).bind ((clean_forM fun r _ => clean_refine r _).bind (clean_pure _))
  · exact (clean_refine ..).bind (clean_pure _)

theorem clean_readTermDecl (d : TermDecl) :
    (readTerm (.named Keyword.termDecl.text) d.lexemes).Clean (some (.term d.block)) := by
  have hcontent : (if (ofChars d.body.toList).isEmpty then [Token.Ref.named d.name.text]
      else (ofChars d.body.toList).map (·.ref)) = d.content.map .named := by
    unfold TermDecl.content
    split
    · rfl
    · rw [List.map_map]
      exact List.map_congr_left fun l hl => ref_of_mem_ofChars hl
  have hread := clean_readTerm d.type.text d.name.text d.params (ofChars d.body.toList)
  rw [hcontent] at hread
  exact hread

theorem reports_readTypes (names : List String) :
    (readTypes (.named Keyword.typeDecl.text) (names.map word)).Reports
      (.types ⟨.named Keyword.typeDecl.text, names.map .named, {}⟩)
      (if names.isEmpty then [.typeMissing] else []) := by
  have hnames : ((names.map word).filter (·.isWord)).map (·.ref) = names.map .named := by
    rw [List.filter_eq_self.2 (List.forall_mem_map.2 fun n _ => isWord_word n), List.map_map]
    rfl
  have hrefine : ((names.map word).forM fun l => if l.isWord then refine l.ref .typeName
      else fault .unexpectedToken l.ref).Clean () :=
    clean_forM (List.forall_mem_map.2 fun n _ => clean_refine ..)
  have hlast : (lastRef (.named Keyword.typeDecl.text) (names.map word)).span = {} := by
    rw [lastRef, List.getLast?_map]
    cases names.getLast? <;> rfl
  unfold readTypes
  refine hrefine.bind_reports ?_
  dsimp only
  rw [hnames, hlast, ← List.isEmpty_map (f := Token.Ref.named)]
  exact reports_missing _ _ (clean_pure _)

theorem clean_ofSection {d : Decl} (h : d.Printable) :
    (ofSection (.bare (d.keyword, d.lexemes))).Clean (some d.block) := by
  cases d with
  | type d =>
    show (some <$> readTypes _ _).Clean _
    rw [map_eq_pure_bind]
    exact (reports_nil_iff.1 (reports_readTypes [d.name.text])).bind (clean_pure _)
  | term d => exact clean_readTermDecl d
  | axm r => exact clean_readAxiom h
  | thm t => exact clean_readThm h.1

theorem clean_ofSections {ds : List Decl} (h : ∀ d ∈ ds, d.Printable) :
    (ofSections (ds.map fun d => .bare (d.keyword, d.lexemes))).Clean (ds.map Decl.block) := by
  induction ds with
  | nil => exact clean_pure []
  | cons d ds ih =>
    obtain ⟨hd, hds⟩ := List.forall_mem_cons.1 h
    exact (clean_ofSection hd).bind ((ih hds).bind (clean_pure _))

end Block

/-- No lexeme that starts a block. -/
def Lexeme.Inner (l : Lexeme) : Prop := ∀ k, l.keyword? = some k → k.startsBlock = false

theorem Lexeme.inner_word (s : String) : (word s).Inner := by
  intro k hk
  cases hk

theorem Lexeme.inner_separator (c : Char) : (separator c).Inner := by
  intro k hk
  cases hk

theorem Lexeme.Plain.inner {l : Lexeme} (h : l.Plain) : l.Inner := by
  intro k hk
  rw [h.1] at hk
  cases hk

theorem Param.inner_listLexemes (ps : List Param) : ∀ l ∈ listLexemes ps, l.Inner := by
  have hinside : ∀ l ∈ [separator ','].intercalate (ps.map lexemes), l.Inner := by
    refine Block.forall_mem_intercalate ?_ fun ls hls => ?_
    · rw [List.forall_mem_singleton]
      exact inner_separator _
    · obtain ⟨p, -, rfl⟩ := List.mem_map.1 hls
      rw [lexemes, List.forall_mem_cons, List.forall_mem_singleton]
      exact ⟨inner_word _, inner_word _⟩
  rw [listLexemes, List.forall_mem_cons, List.forall_mem_append, List.forall_mem_singleton]
  exact ⟨inner_separator _, hinside, inner_separator _⟩

theorem inner_ruleLexemes {name : String} {ps : List Param} {ss : List (Keyword × List Lexeme)}
    (hss : ∀ s ∈ ss, IsStatement s) :
    ∀ l ∈ ruleLexemes name ps ss, l.Inner := by
  have hinside : ∀ l ∈ ss.flatMap (fun s => Lexeme.keyword s.1 :: s.2), l.Inner := by
    intro l hl
    obtain ⟨s, hs, hl⟩ := List.mem_flatMap.1 hl
    obtain ⟨hstarts, hplain⟩ := hss s hs
    rcases List.mem_cons.1 hl with rfl | hl
    · intro k hk
      rw [keyword?_keyword] at hk
      cases hk
      simpa [Keyword.startsStatement] using hstarts
    · exact (hplain l hl).inner
  simp only [ruleLexemes, List.forall_mem_cons, List.forall_mem_append]
  exact ⟨inner_word _, Param.inner_listLexemes ps, inner_separator _, hinside, inner_separator _,
    List.forall_mem_nil _⟩

theorem inner_termLexemes {type name : String} {ps : List Param} {form : List Lexeme}
    (hform : ∀ l ∈ form, l.Inner) : ∀ l ∈ termLexemes type name ps form, l.Inner := by
  have hparams : ∀ l ∈ (if ps.isEmpty then [] else Param.listLexemes ps), l.Inner := by
    split
    · exact List.forall_mem_nil _
    · exact Param.inner_listLexemes ps
  simp only [termLexemes, List.forall_mem_cons, List.forall_mem_append]
  exact ⟨inner_word _, inner_word _, hparams, inner_separator _, hform, inner_separator _,
    List.forall_mem_nil _⟩

/-- What comes after the statement of a theorem. -/
theorem inner_proofLexemes (ts : List Tree) :
    ∀ l ∈ separator '=' :: separator '{' :: (ts.flatMap Tree.lexemes ++ [separator '}']), l.Inner := by
  have hproof : ∀ l ∈ ts.flatMap Tree.lexemes, l.Inner := by
    intro l hl
    obtain ⟨t, -, hl⟩ := List.mem_flatMap.1 hl
    exact (t.plain_lexemes l hl).inner
  simp only [List.forall_mem_cons, List.forall_mem_append]
  exact ⟨inner_separator _, inner_separator _, hproof, inner_separator _, List.forall_mem_nil _⟩

/-- A printed declaration is one section. -/
theorem Decl.inner_lexemes {d : Decl} (h : d.Printable) : ∀ l ∈ d.lexemes, l.Inner := by
  cases d with
  | type d =>
    rw [lexemes, List.forall_mem_singleton]
    exact inner_word _
  | term d =>
    refine inner_termLexemes fun l hl k hk => ?_
    have := (TermDecl.Printable.legible h).2 l hl
    rwa [hk] at this
  | axm r => exact inner_ruleLexemes fun s => Rule.isStatement_of_mem
  | thm t =>
    have hproof := inner_proofLexemes (t.proof.map (·.tree))
    rw [List.flatMap_map] at hproof
    exact List.forall_mem_append.2 ⟨inner_ruleLexemes fun s => Rule.isStatement_of_mem, hproof⟩

theorem Decl.startsBlock_keyword (d : Decl) : d.keyword.startsBlock = true := by
  cases d <;> rfl

/-- A printed text is read as the blocks of its declarations, up to places, and without a fault. -/
theorem Block.clean_readAll_renderAll {ds : List Decl} (h : ∀ d ∈ ds, d.Printable) :
    (relocate Relocation.blank (readAll (Token.scan (Decl.renderAll ds)))).Clean (ds.map Decl.block) := by
  have hsplit := @Section.split_flatMap Keyword.startsBlock (ds.map fun d => (d.keyword, d.lexemes))
    (List.forall_mem_map.2 fun d _ => d.startsBlock_keyword)
    (List.forall_mem_map.2 fun d hd => Decl.inner_lexemes (h d hd))
  rw [List.flatMap_map, List.map_map] at hsplit
  rw [readAll_eq, ← readLexemes_relocate, relocate_ofTokens, Decl.ofChars_renderAll h, readLexemes, hsplit]
  exact (clean_pure ()).bind (clean_ofSections h)

end Sequitur
