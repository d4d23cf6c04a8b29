import Sequitur.Proofs.Words
import Sequitur.Term

/-!
# Trees of names

The tree of a term is what is left of it without places, types and declarations: names and nothing
else. A key spells the tree of its term (`toList_key`), and if all names are words it can be read
back, so terms with the same key have the same tree (`tree_eq_of_key_eq`).

Terms are also read under an assignment of trees to holes (`Term.eval`). The tree of a term is its
value where every hole stands for itself.
-/

namespace Sequitur

namespace Term

/-- Induction where an application has the hypothesis for each of its arguments. -/
@[elab_as_elim] theorem ind {P : Term → Prop} (var : ∀ head span param, P (.var head span param))
    (hole : ∀ head span param, P (.hole head span param))
    (app : ∀ head span decl args, (∀ a ∈ args, P a) → P (.app head span decl args)) (t : Term) :
    P t := by
  refine @Term.rec P (fun ts => ∀ a ∈ ts, P a) var hole app nofun (fun t ts ht hts a ha => ?_) t
  rcases List.mem_cons.1 ha with rfl | ha
  · exact ht
  · exact hts a ha

@[simp] theorem key_var (head : Token.Ref) (span : Span) (param : Param) :
    key (.var head span param) = param.name.text := rfl

@[simp] theorem key_hole (head : Token.Ref) (span : Span) (param : Param) :
    key (.hole head span param) = head.text := rfl

theorem key_app (head : Token.Ref) (span : Span) (decl : TermDecl) (args : List Term) :
    key (.app head span decl args) = appKey decl.name.text (args.map key) := by
  rw [key, keys_eq_map]

theorem holes_app (head : Token.Ref) (span : Span) (decl : TermDecl) (args : List Term) :
    holes (.app head span decl args) = args.flatMap holes := by
  rw [holes, holesAll_eq_flatMap]

end Term

/-- A name with arguments. -/
inductive Tree where
  | node (name : String) (children : List Tree)

namespace Tree

mutual
def size : Tree → Nat
  | .node _ children => 1 + sizes children
def sizes : List Tree → Nat
  | [] => 0
  | t :: ts => size t + sizes ts
end

mutual
/-- The characters of a key. -/
def spell : Tree → List Char
  | .node name [] => name.toList
  | .node name (t :: ts) => name.toList ++ '(' :: (spell t ++ spellRest ts)
/-- Further arguments and the closing parenthesis. -/
def spellRest : List Tree → List Char
  | [] => [')']
  | t :: ts => ',' :: (spell t ++ spellRest ts)
end

mutual
/-- All names are words. -/
def Words : Tree → Prop
  | .node name children => IsWord name ∧ WordsAll children
def WordsAll : List Tree → Prop
  | [] => True
  | t :: ts => Words t ∧ WordsAll ts
end

theorem size_le_sizes {t : Tree} {ts : List Tree} (h : t ∈ ts) : t.size ≤ sizes ts := by
  induction ts with
  | nil => exact absurd h List.not_mem_nil
  | cons s ts ih =>
    rw [sizes]
    rcases List.mem_cons.1 h with rfl | h
    · omega
    · have := ih h
      omega

theorem size_lt_of_mem {t : Tree} {name : String} {ts : List Tree} (h : t ∈ ts) :
    t.size < (node name ts).size := by
  have := size_le_sizes h
  rw [size]
  omega

theorem wordsAll_iff {ts : List Tree} : WordsAll ts ↔ ∀ t ∈ ts, t.Words := by
  induction ts with
  | nil => simp [WordsAll]
  | cons t ts ih => simp [WordsAll, ih]

/-! ### Reading a key back -/

/-- What can follow a word in a key: nothing, or something that starts with a boundary. -/
def Stops (r : List Char) : Prop := ∀ c ∈ r.head?, Token.isBoundary c = true

theorem stops_cons {c : Char} {r : List Char} (hc : Token.isBoundary c = true) : Stops (c :: r) := by
  intro d hd
  cases hd
  exact hc

/-- Where a text stops at the first character with a property, it can be told from what follows. -/
theorem append_inj_of_stops {p : Char → Bool} {v w r q : List Char} (hv : ∀ c ∈ v, p c = false)
    (hw : ∀ c ∈ w, p c = false) (hr : ∀ c ∈ r.head?, p c = true) (hq : ∀ c ∈ q.head?, p c = true)
    (h : v ++ r = w ++ q) : v = w ∧ r = q := by
  induction v generalizing w with
  | nil =>
    cases w with
    | nil => exact ⟨rfl, h⟩
    | cons d w =>
      have := hr d (by rw [← List.nil_append r, h]; rfl)
      rw [hw d (List.mem_cons_self ..)] at this
      exact absurd this nofun
  | cons c v ih =>
    cases w with
    | nil =>
      have := hq c (by rw [← List.nil_append q, ← h]; rfl)
      rw [hv c (List.mem_cons_self ..)] at this
      exact absurd this nofun
    | cons d w =>
      rw [List.cons_append, List.cons_append, List.cons.injEq] at h
      obtain ⟨rfl, h⟩ := h
      obtain ⟨rfl, hrq⟩ := ih (fun c hc => hv c (List.mem_cons_of_mem _ hc))
        (fun c hc => hw c (List.mem_cons_of_mem _ hc)) h
      exact ⟨rfl, hrq⟩

theorem word_append_inj {v w : List Char} {r q : List Char}
    (hv : ∀ c ∈ v, Token.isBoundary c = false) (hw : ∀ c ∈ w, Token.isBoundary c = false)
    (hr : Stops r) (hq : Stops q) (h : v ++ r = w ++ q) : v = w ∧ r = q :=
  append_inj_of_stops hv hw hr hq h

/-- What can follow the key of an argument: not an opening parenthesis. -/
def Ends (r : List Char) : Prop := Stops r ∧ r.head? ≠ some '('

theorem ends_spellRest_append (ts : List Tree) (r : List Char) : Ends (spellRest ts ++ r) := by
  cases ts with
  | nil => exact ⟨stops_cons rfl, by simp [spellRest]⟩
  | cons t ts => exact ⟨stops_cons rfl, by simp [spellRest]⟩

mutual
theorem spell_append_inj : ∀ (s t : Tree) {r q : List Char}, s.Words → t.Words → Ends r → Ends q →
    spell s ++ r = spell t ++ q → s = t ∧ r = q
  | .node v [], .node w [], r, q, hs, ht, hr, hq, h => by
    obtain ⟨hvw, h⟩ := word_append_inj hs.1.2 ht.1.2 hr.1 hq.1 h
    exact ⟨by rw [String.toList_inj.1 hvw], h⟩
  | .node v [], .node w (b :: ts), r, q, hs, ht, hr, _, h => by
    simp only [spell, List.append_assoc] at h
    obtain ⟨-, h⟩ := word_append_inj hs.1.2 ht.1.2 hr.1 (stops_cons rfl) h
    exact absurd (by rw [h]; rfl) hr.2
  | .node v (a :: ss), .node w [], r, q, hs, ht, _, hq, h => by
    simp only [spell, List.append_assoc] at h
    obtain ⟨-, h⟩ := word_append_inj hs.1.2 ht.1.2 (stops_cons rfl) hq.1 h
    exact absurd (by rw [← h]; rfl) hq.2
  | .node v (a :: ss), .node w (b :: ts), r, q, hs, ht, _, _, h => by
    simp only [spell, List.append_assoc, List.cons_append] at h
    obtain ⟨hvw, h⟩ := word_append_inj hs.1.2 ht.1.2 (stops_cons rfl) (stops_cons rfl) h
    obtain ⟨-, h⟩ := List.cons.inj h
    obtain ⟨hab, h⟩ := spell_append_inj a b hs.2.1 ht.2.1 (ends_spellRest_append ss r)
      (ends_spellRest_append ts q) h
    obtain ⟨hst, h⟩ := spellRest_append_inj ss ts hs.2.2 ht.2.2 h
    exact ⟨by rw [String.toList_inj.1 hvw, hab, hst], h⟩
theorem spellRest_append_inj : ∀ (ss ts : List Tree) {r q : List Char}, WordsAll ss → WordsAll ts →
    spellRest ss ++ r = spellRest ts ++ q → ss = ts ∧ r = q
  | [], [], r, q, _, _, h => ⟨rfl, (List.cons.inj h).2⟩
  | [], b :: ts, r, q, _, _, h => absurd (List.cons.inj h).1 (by decide)
  | a :: ss, [], r, q, _, _, h => absurd (List.cons.inj h).1 (by decide)
  | a :: ss, b :: ts, r, q, hs, ht, h => by
    simp only [spellRest, List.cons_append, List.append_assoc, List.cons.injEq, true_and] at h
    obtain ⟨hab, h⟩ := spell_append_inj a b hs.1 ht.1 (ends_spellRest_append ss r)
      (ends_spellRest_append ts q) h
    obtain ⟨hst, h⟩ := spellRest_append_inj ss ts hs.2 ht.2 h
    exact ⟨by rw [hab, hst], h⟩
end

theorem spell_inj {s t : Tree} (hs : s.Words) (ht : t.Words) (h : spell s = spell t) : s = t := by
  have hnil : Ends [] := ⟨nofun, nofun⟩
  exact (spell_append_inj s t hs ht hnil hnil (by rw [h])).1

/-! ### Leaves -/

mutual
/-- Puts trees in the place of leaves. -/
def fill (f : String → Tree) : Tree → Tree
  | .node x [] => f x
  | .node x (t :: ts) => .node x (fill f t :: fillAll f ts)
def fillAll (f : String → Tree) : List Tree → List Tree
  | [] => []
  | t :: ts => fill f t :: fillAll f ts
end

theorem fillAll_eq_map (f : String → Tree) (ts : List Tree) : fillAll f ts = ts.map (fill f) := by
  induction ts with
  | nil => rfl
  | cons t ts ih => simp [fillAll, ih]

@[simp] theorem fill_leaf (f : String → Tree) (x : String) : fill f (.node x []) = f x := by
  rw [fill]

theorem fill_node (f : String → Tree) (x : String) {ts : List Tree} (h : ts ≠ []) :
    fill f (.node x ts) = .node x (ts.map (fill f)) := by
  obtain ⟨t, ts, rfl⟩ := List.exists_cons_of_ne_nil h
  rw [fill, fillAll_eq_map, List.map_cons]

end Tree

namespace Term

mutual
/-- The value of a term where holes stand for trees. -/
def eval (θ : String → Tree) : Term → Tree
  | .var _ _ param => .node param.name.text []
  | .hole head _ _ => θ head.text
  | .app _ _ decl args => .node decl.name.text (evalAll θ args)
def evalAll (θ : String → Tree) : List Term → List Tree
  | [] => []
  | t :: ts => eval θ t :: evalAll θ ts
end

/-- The names of a term. -/
def tree (t : Term) : Tree := t.eval fun v => .node v []

theorem evalAll_eq_map (θ : String → Tree) (ts : List Term) : evalAll θ ts = ts.map (eval θ) := by
  induction ts with
  | nil => rfl
  | cons t ts ih => simp [evalAll, ih]

@[simp] theorem eval_var (θ : String → Tree) (head : Token.Ref) (span : Span) (param : Param) :
    eval θ (.var head span param) = .node param.name.text [] := rfl

@[simp] theorem eval_hole (θ : String → Tree) (head : Token.Ref) (span : Span) (param : Param) :
    eval θ (.hole head span param) = θ head.text := rfl

@[simp] theorem eval_app (θ : String → Tree) (head : Token.Ref) (span : Span) (decl : TermDecl)
    (args : List Term) :
    eval θ (.app head span decl args) = .node decl.name.text (args.map (eval θ)) := by
  rw [eval, evalAll_eq_map]

@[simp] theorem tree_var (head : Token.Ref) (span : Span) (param : Param) :
    tree (.var head span param) = .node param.name.text [] := rfl

@[simp] theorem tree_hole (head : Token.Ref) (span : Span) (param : Param) :
    tree (.hole head span param) = .node head.text [] := rfl

@[simp] theorem tree_app (head : Token.Ref) (span : Span) (decl : TermDecl) (args : List Term) :
    tree (.app head span decl args) = .node decl.name.text (args.map tree) :=
  eval_app _ head span decl args

/-- Only the holes that occur matter. -/
theorem eval_congr {θ η : String → Tree} {t : Term} (h : ∀ v ∈ t.holes.map key, θ v = η v) :
    t.eval θ = t.eval η := by
  induction t using Term.ind with
  | var head span param => rfl
  | hole head span param => exact h head.text (by simp [holes])
  | app head span decl args ih =>
    rw [eval_app, eval_app]
    refine congrArg (Tree.node _) (List.map_congr_left fun a ha => ih a ha fun v hv => h v ?_)
    rw [holes_app, List.map_flatMap]
    exact List.mem_flatMap.2 ⟨a, ha, hv⟩

/-! ### Keys -/

theorem toList_intercalate_keys (k : String) (ts : List Term)
    (h : ∀ t ∈ ts, (key t).toList = t.tree.spell) :
    (",".intercalate (k :: ts.map key)).toList ++ [')'] =
      k.toList ++ Tree.spellRest (ts.map tree) := by
  induction ts generalizing k with
  | nil => simp [Tree.spellRest]
  | cons t ts ih =>
    have ht := h t (List.mem_cons_self ..)
    have hts := ih t.key fun u hu => h u (List.mem_cons_of_mem _ hu)
    rw [List.map_cons, String.intercalate_cons_cons, String.toList_append, String.toList_append,
      List.append_assoc, hts, ht, List.map_cons, Tree.spellRest]
    simp

/-- A key spells the tree of its term. -/
theorem toList_key (t : Term) : t.key.toList = t.tree.spell := by
  induction t using Term.ind with
  | var head span param => rfl
  | hole head span param => rfl
  | app head span decl args ih =>
    rw [key_app, tree_app]
    cases args with
    | nil => rfl
    | cons a as =>
      have ha := ih a (List.mem_cons_self ..)
      have hk := toList_intercalate_keys a.key as fun t ht => ih t (List.mem_cons_of_mem _ ht)
      simp only [appKey, List.map_cons, List.isEmpty_cons, Bool.false_eq_true, if_false,
        String.toList_append, List.append_assoc, Tree.spell]
      rw [show ")".toList = [')'] from rfl, hk, ha]
      rfl

theorem key_eq_of_tree_eq {s t : Term} (h : s.tree = t.tree) : s.key = t.key := by
  rw [← String.toList_inj, toList_key, toList_key, h]

theorem tree_eq_of_key_eq {s t : Term} (hs : s.tree.Words) (ht : t.tree.Words) (h : s.key = t.key) :
    s.tree = t.tree := by
  refine Tree.spell_inj hs ht ?_
  rw [← toList_key, ← toList_key, h]

/-- The key of an application to arguments is no word. -/
theorem not_isWord_key_app {head : Token.Ref} {span : Span} {decl : TermDecl} {args : List Term}
    (h : args ≠ []) : ¬IsWord (key (.app head span decl args)) := by
  intro hw
  refine hw.not_mem (c := '(') rfl ?_
  obtain ⟨a, as, rfl⟩ := List.exists_cons_of_ne_nil h
  rw [toList_key, tree_app, List.map_cons, Tree.spell]
  simp

end Term

/-! ### Terms of a single type

The terms that examples are made of. -/

namespace OneType

def param (x : String) : Param := ⟨{ text := "T" }, { text := x }⟩

def var (x : String) : Term := .var { text := x } {} (param x)

def hole (v : String) : Term := .hole { text := v } {} (param v)

def app (f : String) (params : List String) (args : List Term) : Term :=
  .app { text := f } {} ⟨{ text := "T" }, { text := f }, params.map param, [.text f], {}⟩ args

def constant (c : String) : Term := app c [] []

def wrap (f : String) (t : Term) : Term := app f ["a"] [t]

def join (s t : Term) : Term := app "f" ["a", "b"] [s, t]

end OneType

end Sequitur
