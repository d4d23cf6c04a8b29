import Sequitur.Proofs.Faithfulness

/-!
# Keys are canonical

Terms count as equal if their keys are, so a key must not stand for two different terms. It does not,
as long as names are words that the scanner makes: a key is read as one expression with the names of the
term, and a term that was elaborated once is elaborated again from its key, to the same key, text and
type (`Term.readText_key`). So keys can be stored and printed in place of terms.
-/

namespace Sequitur

open Placed (relocate)
open Noted
open Sequitur.Tree (Stops)

/-! ### Reading keys -/

mutual
/-- The expression that a tree spells has the names of the tree. -/
theorem Tree.tree_expr : ∀ t : Tree, t.expr.tree = t
  | .node name children => by
    rw [expr, Expr.tree, trees_exprs children]
    rfl
theorem Tree.trees_exprs : ∀ ts : List Tree, Expr.trees (exprs ts) = ts
  | [] => rfl
  | t :: ts => by rw [exprs, Expr.trees, tree_expr t, trees_exprs ts]
end

namespace Expr

mutual
theorem names_tree : ∀ e : Expr, e.tree.names = e.heads.map (·.text)
  | ⟨head, args, span⟩ => by rw [tree, Tree.names, heads, namesAll_trees args, List.map_cons]
theorem namesAll_trees : ∀ es : List Expr, Tree.namesAll (trees es) = (headsAll es).map (·.text)
  | [] => rfl
  | e :: es => by rw [trees, Tree.namesAll, headsAll, names_tree e, namesAll_trees es, List.map_append]
end

/-- Expressions with the same names are the same up to places. -/
theorem relocate_eq_of_tree_eq {e f : Expr} (h : e.tree = f.tree) : relocate .blank e = relocate .blank f := by
  rw [← expr_tree, ← expr_tree, h]

/-- The expressions that a text spells. -/
def readText (text : String) : Noted (List Expr) := readAll (Lexeme.ofTokens (Token.scan text))

end Expr

/-- A name that the scanner takes for a word in some text. -/
def ScannedWord (n : String) : Prop := ∃ text, ∃ t ∈ Token.scan text, t.kind = .word ∧ t.text = n

theorem ScannedWord.isName {n : String} (h : ScannedWord n) : IsName n := by
  obtain ⟨text, t, ht, hw, rfl⟩ := h
  exact Token.isName_of_mem_scan ht hw

theorem WordIn.scannedWord {text : String} {r : Token.Ref} (h : WordIn (Lexeme.ofTokens (Token.scan text)) r) :
    ScannedWord r.text := by
  obtain ⟨l, hl, hw, rfl⟩ := h
  obtain ⟨t, ht, hk, he⟩ := Lexeme.exists_token_of_mem hl
  exact ⟨text, t, ht, hk ▸ beq_iff_eq.1 hw, he.symm⟩

namespace Term

/-- A key is read as one expression. -/
theorem exists_readText_key {t : Term} (h : ∀ n ∈ t.tree.names, ScannedWord n) :
    ∃ e, (Expr.readText t.key).Clean [e] ∧ e.tree = t.tree := by
  have hend : Stops [] := fun c hc => absurd hc (by simp)
  have hchars := ofChars_key (fun n hn => (h n hn).isName) hend
  rw [List.append_nil, Lexeme.ofChars_nil, List.append_nil] at hchars
  have hread := Expr.clean_readAll_lexemes t.tree
  rw [← hchars, ← Lexeme.relocate_ofTokens, Expr.readAll_relocate] at hread
  obtain ⟨e, hvalue, he⟩ := List.map_eq_singleton_iff.1 hread.1
  refine ⟨e, ⟨hvalue, List.map_eq_nil_iff.1 hread.2⟩, ?_⟩
  rw [← e.tree.tree_expr, e.expr_tree, he, Tree.tree_expr]

end Term

/-! ### Elaborating again -/

namespace Expr

variable {scope : Scope} {params : List Param}

theorem isSome_of_typedArgs {ts : List (Option Term)} {wants : List Param} (hlen : ts.length = wants.length)
    {us : List Term} (h : typedArgs ts wants = some us) : ∀ t ∈ ts, t.isSome = true := by
  induction ts generalizing wants us with
  | nil => exact List.forall_mem_nil _
  | cons t ts ih =>
    cases wants with
    | nil => exact absurd hlen (by simp)
    | cons want wants =>
      cases t with
      | none => cases h
      | some t =>
        rw [typedArgs] at h
        split at h
        · obtain ⟨vs, hvs, -⟩ := Option.map_eq_some_iff.1 h
          exact List.forall_mem_cons.2 ⟨rfl, ih (Nat.succ.inj hlen) hvs⟩
        · cases h

theorem length_elaborateAll (es : List Expr) : (elaborateAll scope params es).value.length = es.length := by
  induction es with
  | nil => rfl
  | cons e es ih => exact congrArg (· + 1) ih

mutual
/-- Nothing is wrong with an expression that is elaborated to a term. -/
theorem diagnostics_elaborate : ∀ e : Expr, (e.elaborate scope params).value.isSome = true →
    (e.elaborate scope params).notes.diagnostics = []
  | ⟨head, args, span⟩ => by
    intro h
    unfold elaborate at h ⊢
    cases hfind : Param.find? params head.text with
    | some param =>
      simp only [hfind] at h ⊢
      by_cases hargs : args.isEmpty = true
      · rw [if_pos hargs]
        rfl
      · rw [if_neg hargs] at h
        exact absurd h Bool.false_ne_true
    | none =>
      cases hdecl : scope.term? head.text with
      | none =>
        simp only [hfind, hdecl] at h
        exact absurd h Bool.false_ne_true
      | some decl =>
        simp only [hfind, hdecl, checkArity] at h ⊢
        by_cases harity : args.length = decl.params.length
        · have hlen : (elaborateAll scope params args).value.length = decl.params.length := by
            rw [length_elaborateAll, harity]
          rw [if_pos harity] at h ⊢
          simp only [pure_bind, Bool.not_true, Bool.false_eq_true, if_false, value_bind, notes_bind] at h ⊢
          cases htyped : typedArgs (elaborateAll scope params args).value decl.params with
          | none =>
            rw [htyped] at h
            exact absurd h Bool.false_ne_true
          | some us =>
            have hargs := diagnostics_elaborateAll args (isSome_of_typedArgs hlen htyped)
            simp [hargs, Noted.refine]
        · rw [if_neg harity] at h
          exact absurd h Bool.false_ne_true
theorem diagnostics_elaborateAll : ∀ es : List Expr,
    (∀ t ∈ (elaborateAll scope params es).value, t.isSome = true) →
      (elaborateAll scope params es).notes.diagnostics = []
  | [], _ => rfl
  | e :: es, h => by
    obtain ⟨he, hes⟩ := List.forall_mem_cons.1 h
    unfold elaborateAll
    rw [notes_bind, notes_bind, Notes.diagnostics_append, Notes.diagnostics_append, diagnostics_elaborate e he,
      diagnostics_elaborateAll es hes]
    rfl
end

theorem tree_of_elaborate {e : Expr} {t : Term} (h : (e.elaborate scope params).value = some t) :
    (e.elaborate scope params).notes.diagnostics = [] ∧ t.tree = e.tree := by
  have hclean := diagnostics_elaborate e (by rw [h]; rfl)
  obtain ⟨u, hu, htree⟩ := ensures_elaborate e hclean
  rw [h] at hu
  cases hu
  exact ⟨hclean, htree⟩

/-- Expressions with the same names are elaborated alike. -/
theorem elaborate_of_tree_eq {e f : Expr} (htree : f.tree = e.tree) {t : Term}
    (h : (e.elaborate scope params).value = some t) :
    ∃ u, (f.elaborate scope params).Clean (some u) ∧ u.key = t.key ∧ u.text = t.text ∧ u.type = t.type := by
  -- both are elaborated like the expression at no place that has their names
  have he := matches_elaborate (φ := .blank) (Scope.Agree.refl id scope) (rfl : Alike id params params) e
  have hf := matches_elaborate (φ := .blank) (Scope.Agree.refl id scope) (rfl : Alike id params params) f
  rw [relocate_eq_of_tree_eq htree] at hf
  obtain ⟨hclean, -⟩ := tree_of_elaborate h
  have hvalue := he.value.1
  rw [h] at hvalue
  obtain ⟨u, hu, halike⟩ := Alike.exists_some (hvalue.trans hf.value.1.symm)
  refine ⟨u, ⟨hu, ?_⟩, ?_, ?_, ?_⟩
  · have hnone := hf.diagnostics
    rw [he.diagnostics, hclean] at hnone
    exact List.map_eq_nil_iff.1 hnone.symm
  · exact (halike.apply_eq (f := Term.key) Term.key_relocate).symm
  · exact (halike.apply_eq (f := Term.text) (Term.text_relocate rfl)).symm
  · exact (halike.apply_eq (f := Term.type) Term.type_relocate).symm

end Expr

/-- The statements of a rule. -/
def Block.formulas : Block → List Expr
  | .types _ | .term _ => []
  | .axm b => b.targets ++ b.assumptions
  | .thm b => b.targets ++ b.assumptions

theorem Block.ReadFrom.formulas {ls : List Lexeme} {b : Block} (h : b.ReadFrom ls) {e : Expr}
    (he : e ∈ b.formulas) : e.ReadFrom ls := by
  have hrule : ∀ {b : RuleBlock}, b.ReadFrom ls → e ∈ b.targets ++ b.assumptions → e.ReadFrom ls := by
    intro b hb he
    exact (List.mem_append.1 he).elim (hb.targets e) (hb.assumptions e)
  cases b with
  | types | term => exact absurd he List.not_mem_nil
  | axm b => exact hrule h he
  | thm b => exact hrule h.1 he

namespace Term

/-- A key is read as the one expression with the names of the term, so terms with the same key have the
same names in the same places. What the statements of a rule were elaborated to is elaborated again from
the key. -/
theorem readText_key :
    (∀ t : Term, (∀ n ∈ t.tree.names, ScannedWord n) →
      ∃ e, (Expr.readText t.key).value = [e] ∧ (Expr.readText t.key).notes.diagnostics = [] ∧
        e.tree = t.tree) ∧
    (∀ t u : Term, (∀ n ∈ t.tree.names, ScannedWord n) → (∀ n ∈ u.tree.names, ScannedWord n) →
      (t.key = u.key ↔ t.tree = u.tree)) ∧
    ∀ (text : String) (scope : Scope) (params : List Param), ∀ b ∈ (Block.readAll (Token.scan text)).value,
      ∀ e ∈ b.formulas, ∀ t, (e.elaborate scope params).value = some t →
        ∃ e' t', (Expr.readText t.key).value = [e'] ∧ (Expr.readText t.key).notes.diagnostics = [] ∧
          (e'.elaborate scope params).value = some t' ∧ (e'.elaborate scope params).notes.diagnostics = [] ∧
          t'.key = t.key ∧ t'.text = t.text ∧ t'.type = t.type := by
  refine ⟨fun t ht => ?_, fun t u ht hu => ⟨fun hkey => ?_, key_eq_of_tree_eq⟩, ?_⟩
  · obtain ⟨e, hread, htree⟩ := exists_readText_key ht
    exact ⟨e, hread.1, hread.2, htree⟩
  · obtain ⟨e, hread, htree⟩ := exists_readText_key ht
    obtain ⟨f, hread', htree'⟩ := exists_readText_key hu
    rw [← hkey, Noted.Clean, hread.1, List.singleton_inj] at hread'
    rw [← htree, ← htree', hread'.1]
  · intro text scope params b hb e he t ht
    obtain ⟨-, htree⟩ := Expr.tree_of_elaborate ht
    have hnames : ∀ n ∈ t.tree.names, ScannedWord n := by
      rw [htree, Expr.names_tree, List.forall_mem_map]
      exact fun r hr => ((Block.readFrom_of_mem_readAll hb).formulas he r hr).scannedWord
    obtain ⟨e', hread, htree'⟩ := exists_readText_key hnames
    obtain ⟨t', hclean, hkey, htext, htype⟩ := Expr.elaborate_of_tree_eq (htree'.trans htree) ht
    exact ⟨e', t', hread.1, hread.2, hclean.1, hclean.2, hkey, htext, htype⟩

/-- A slash goes with a word unless a comment starts there. -/
def slashed (args : List Term) : Term := .app (.named "f/") {} ⟨.named "T", .named "f/", [], [], {}⟩ args

def marked : Term := .var (.named "x?") {} ⟨.named "T", .named "x?"⟩

def slashedScope : Scope :=
  { imports := [(Document.check [] 5 "type T term T é term T f/(T x, T y) { x / y }").table] }

def slashedRule : String :=
  "axiom a(T x?) { |- f/(f/(x?, é) // a comment
    x?) }"

theorem readText_key_slashed :
    let t := slashed [slashed [marked], marked]
    let u := slashed [slashed [marked, marked]]
    let params : List Param := [⟨.named "T", .named "x?"⟩]
    (∃ e, (Expr.readText t.key).value = [e] ∧ (Expr.readText t.key).notes.diagnostics = [] ∧
      e.tree = t.tree) ∧ (t.key = u.key ↔ t.tree = u.tree) ∧
      ∃ b ∈ (Block.readAll (Token.scan slashedRule)).value,
        ∃ e ∈ b.formulas, ∃ t, (e.elaborate slashedScope params).value = some t ∧
          ∃ e' t', (Expr.readText t.key).value = [e'] ∧ (Expr.readText t.key).notes.diagnostics = [] ∧
            (e'.elaborate slashedScope params).value = some t' ∧
            (e'.elaborate slashedScope params).notes.diagnostics = [] ∧
            t'.key = t.key ∧ t'.text = t.text ∧ t'.type = t.type := by
  intro t u params
  have hwords : ["f/", "x?"].all (fun n =>
      (Token.scan n).any fun t => t.kind == .word && t.text == n) = true := by decide +kernel
  have hscanned : ∀ n ∈ ["f/", "f/", "x?", "x?"], ScannedWord n := by
    intro n hn
    have hmem : n ∈ ["f/", "x?"] := by simpa using hn
    obtain ⟨t, ht, he⟩ := List.any_eq_true.1 (List.all_eq_true.1 hwords n hmem)
    simp only [Bool.and_eq_true, beq_iff_eq] at he
    exact ⟨n, t, ht, he⟩
  have hblock : (Block.readAll (Token.scan slashedRule)).value.any
      (fun b => b.formulas.any fun e => (e.elaborate slashedScope params).value.isSome) = true := by
    decide +kernel
  obtain ⟨b, hb, hany⟩ := List.any_eq_true.1 hblock
  obtain ⟨e, he, hsome⟩ := List.any_eq_true.1 hany
  obtain ⟨v, hv⟩ := Option.isSome_iff_exists.1 hsome
  exact ⟨readText_key.1 t hscanned, readText_key.2.1 t u hscanned hscanned, b, hb, e, he, v, hv,
    readText_key.2.2 _ slashedScope params b hb e he v hv⟩

end Term

end Sequitur
