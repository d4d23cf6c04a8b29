import Mathlib.Data.List.Nodup
import Sequitur.Block.Reader
import Sequitur.Proofs.Words

/-!
# What blocks are read from

All names that a block holds are words of its section, the form of a term is made of lexemes of it, and
distinctness groups hold at least two words that are parameters of the block, none of them twice
(`Block.readFrom_of_mem_readAll`). The section is the one that the block's keyword opens
(`Block.exists_section`). This is so whatever the reader finds wrong on the way, so every reader gets a
lemma about its value alone (`Noted.Yields`).
-/

namespace Sequitur

namespace Noted

variable {α β : Type} {P : β → Prop}

/-- The value of a computation has a property, whatever its notes are. -/
def Yields (x : Noted α) (Q : α → Prop) : Prop := Q x.value

theorem yields_pure {Q : α → Prop} {a : α} (h : Q a) : (pure a : Noted α).Yields Q := h

theorem yields_bind {Q : α → Prop} {x : Noted α} {f : α → Noted β} (hx : x.Yields Q)
    (hf : ∀ a, Q a → (f a).Yields P) : (x >>= f).Yields P :=
  hf _ hx

theorem yields_then {x : Noted α} {f : α → Noted β} (hf : ∀ a, (f a).Yields P) :
    (x >>= f).Yields P :=
  hf _

theorem Yields.mono {x : Noted β} {Q : β → Prop} (hx : x.Yields Q) (h : ∀ b, Q b → P b) : x.Yields P :=
  h _ hx

theorem yields_ite {c : Prop} [Decidable c] {x y : Noted β} (hx : c → x.Yields P)
    (hy : ¬c → y.Yields P) : (if c then x else y).Yields P :=
  iteInduction (motive := (Yields · P)) hx hy

theorem yields_foldlM {f : β → α → Noted β} {l : List α} (hf : ∀ b, ∀ a ∈ l, P b → (f b a).Yields P)
    {b : β} (hb : P b) : (l.foldlM f b).Yields P := by
  induction l generalizing b with
  | nil => exact hb
  | cons a l ih =>
    rw [List.foldlM_cons]
    exact yields_bind (hf b a (List.mem_cons_self ..) hb) fun c hc =>
      ih (fun b a ha => hf b a (List.mem_cons_of_mem _ ha)) hc

end Noted

open Noted

/-- A token is one of the words among some lexemes. -/
def WordIn (ls : List Lexeme) (r : Token.Ref) : Prop := ∃ l ∈ ls, l.isWord = true ∧ l.ref = r

theorem WordIn.mono {ls ms : List Lexeme} {r : Token.Ref} (h : WordIn ls r) (hs : ls ⊆ ms) :
    WordIn ms r := by
  obtain ⟨l, hl, hw⟩ := h
  exact ⟨l, hs hl, hw⟩

theorem WordIn.isWord {text : String} {r : Token.Ref} (h : WordIn (Lexeme.ofTokens (Token.scan text)) r) :
    IsWord r.text := by
  obtain ⟨l, hl, hw, rfl⟩ := h
  exact Lexeme.isWord_of_mem_scan hl hw

/-- Type and name of a parameter are words. -/
def Param.ReadFrom (ls : List Lexeme) (p : Param) : Prop := WordIn ls p.type ∧ WordIn ls p.name

theorem Param.ReadFrom.mono {ls ms : List Lexeme} {p : Param} (h : p.ReadFrom ls) (hs : ls ⊆ ms) :
    p.ReadFrom ms :=
  ⟨h.1.mono hs, h.2.mono hs⟩

/-- Names that stand for at least two different parameters. -/
def GroupOf (params : List Param) (g : List Token.Ref) : Prop :=
  2 ≤ g.length ∧ (g.map (·.text)).Nodup ∧ ∀ x ∈ g, ∃ p ∈ params, p.name.text = x.text

namespace Expr

mutual
/-- The heads of an expression and of its arguments, in the order in which they are written. -/
def heads : Expr → List Token.Ref
  | ⟨head, args, _⟩ => head :: headsAll args
def headsAll : List Expr → List Token.Ref
  | [] => []
  | e :: es => heads e ++ headsAll es
end

theorem head_mem_heads (e : Expr) : e.head ∈ e.heads := by
  cases e
  simp [heads]

theorem headsAll_args_subset (e : Expr) : headsAll e.args ⊆ e.heads := by
  obtain ⟨head, args, span⟩ := e
  rw [heads]
  exact List.subset_cons_self head (headsAll args)

/-- Every head is a word. -/
def ReadFrom (ls : List Lexeme) (e : Expr) : Prop := ∀ r ∈ e.heads, WordIn ls r

theorem ReadFrom.mono {ls ms : List Lexeme} {e : Expr} (h : e.ReadFrom ls) (hs : ls ⊆ ms) : e.ReadFrom ms :=
  fun r hr => (h r hr).mono hs

end Expr

structure TermBlock.ReadFrom (ls : List Lexeme) (b : TermBlock) : Prop where
  type : WordIn ls b.type
  name : WordIn ls b.name
  params : ∀ p ∈ b.params, p.ReadFrom ls
  content_ne_nil : b.content ≠ []
  content : ∀ r ∈ b.content, ∃ l ∈ ls, r = l.ref

structure RuleBlock.ReadFrom (ls : List Lexeme) (b : RuleBlock) : Prop where
  name : WordIn ls b.name
  params : ∀ p ∈ b.params, p.ReadFrom ls
  targets : ∀ e ∈ b.targets, e.ReadFrom ls
  assumptions : ∀ e ∈ b.assumptions, e.ReadFrom ls
  groups : ∀ g ∈ b.distinct, GroupOf b.params g
  members : ∀ g ∈ b.distinct, ∀ x ∈ g, WordIn ls x

def Block.ReadFrom (ls : List Lexeme) : Block → Prop
  | .types b => ∀ n ∈ b.names, WordIn ls n
  | .term b => b.ReadFrom ls
  | .axm b => b.ReadFrom ls
  | .thm b => b.toRuleBlock.ReadFrom ls ∧ ∀ e ∈ b.proof, e.ReadFrom ls

theorem TermBlock.ReadFrom.mono {ls ms : List Lexeme} {b : TermBlock} (h : b.ReadFrom ls)
    (hs : ls ⊆ ms) : b.ReadFrom ms where
  type := h.type.mono hs
  name := h.name.mono hs
  params p hp := (h.params p hp).mono hs
  content_ne_nil := h.content_ne_nil
  content r hr := by
    obtain ⟨l, hl, he⟩ := h.content r hr
    exact ⟨l, hs hl, he⟩

theorem RuleBlock.ReadFrom.mono {ls ms : List Lexeme} {b : RuleBlock} (h : b.ReadFrom ls)
    (hs : ls ⊆ ms) : b.ReadFrom ms where
  name := h.name.mono hs
  params p hp := (h.params p hp).mono hs
  targets e he := (h.targets e he).mono hs
  assumptions e he := (h.assumptions e he).mono hs
  groups := h.groups
  members g hg x hx := (h.members g hg x hx).mono hs

theorem Block.ReadFrom.mono {ls ms : List Lexeme} {b : Block} (h : b.ReadFrom ls) (hs : ls ⊆ ms) :
    b.ReadFrom ms := by
  cases b with
  | types b => exact fun n hn => (h n hn).mono hs
  | term b => exact TermBlock.ReadFrom.mono h hs
  | axm b => exact RuleBlock.ReadFrom.mono h hs
  | thm b => exact ⟨h.1.mono hs, fun e he => (h.2 e he).mono hs⟩

/-! ### Sections -/

theorem Section.body_subset {heads : Keyword → Bool} {ls : List Lexeme} {s : Section}
    (h : s ∈ (split heads ls).2) : s.body ⊆ ls := by
  intro l hl
  rw [← split_append heads ls]
  refine List.mem_append_right _ (List.mem_flatMap.2 ⟨s, h, ?_⟩)
  exact List.mem_cons_of_mem _ hl

/-! ### Expressions -/

namespace Expr

def Item.heads : Item → List Token.Ref
  | .opened head => [head]
  | .done e => e.heads

/-- The heads on a stack, bottom first. -/
def stackHeads : List Item → List Token.Ref
  | [] => []
  | item :: stack => stackHeads stack ++ item.heads

theorem mem_stackHeads {stack : List Item} {item : Item} (h : item ∈ stack) {r : Token.Ref}
    (hr : r ∈ item.heads) : r ∈ stackHeads stack := by
  induction stack with
  | nil => exact absurd h List.not_mem_nil
  | cons i stack ih =>
    rw [stackHeads, List.mem_append]
    rcases List.mem_cons.1 h with rfl | h
    · exact .inr hr
    · exact .inl (ih h)

theorem stackHeads_closeCall {close : Token.Ref} {stack rest : List Item} {args : List Expr} {e : Expr}
    (h : closeCall close stack args = some (e, rest)) :
    stackHeads (.done e :: rest) = stackHeads stack ++ headsAll args := by
  induction stack generalizing args with
  | nil => cases h
  | cons item stack ih =>
    cases item with
    | done arg =>
      have := ih h
      simpa [stackHeads, Item.heads, headsAll] using this
    | opened head =>
      cases h
      simp [stackHeads, Item.heads, heads]

/-- Working off lexemes puts each of their words on the stack, once and in order. -/
theorem yields_shift (stack : List Item) (ls : List Lexeme) :
    (shift stack ls).Yields fun items =>
      stackHeads items = stackHeads stack ++ (ls.filter (·.isWord)).map (·.ref) := by
  have hleaf : ∀ r, (leaf r).heads = [r] := fun r => by rw [leaf, heads, headsAll]
  induction stack, ls using shift.induct with
  | case1 stack => exact yields_pure (by simp)
  | case2 stack l hw =>
    rw [shift_word_singleton hw]
    exact yields_pure (by simp [stackHeads, Item.heads, hleaf, hw])
  | case3 stack l hw next rest hp ih =>
    have hn : next.isWord = false := by
      simp only [Lexeme.isSeparator, Bool.and_eq_true, beq_iff_eq] at hp
      simp [Lexeme.isWord, hp.1]
    rw [shift_call hw hp]
    refine ih.mono fun items h => ?_
    simpa [stackHeads, Item.heads, hw, hn] using h
  | case4 stack l hw next rest hp ih =>
    rw [shift_word hw hp]
    refine ih.mono fun items h => ?_
    rw [h, List.filter_cons_of_pos hw]
    simp [stackHeads, Item.heads, hleaf]
  | case5 stack l ls hw hp e stack' hc ih =>
    rw [shift_close hw hp hc]
    refine yields_then fun _ => ih.mono fun items h => ?_
    rw [h, stackHeads_closeCall hc, headsAll, List.append_nil, List.filter_cons_of_neg hw]
  | case6 stack l ls hw hp hc ih =>
    rw [shift_close_none hw hp hc, List.filter_cons_of_neg hw]
    exact yields_then fun _ => ih
  | case7 stack l ls hw hp hs ih =>
    rw [shift_comma hw hp hs, List.filter_cons_of_neg hw]
    exact ih
  | case8 stack l ls hw hp hs ih =>
    rw [shift_unexpected hw hp hs, List.filter_cons_of_neg hw]
    exact yields_then fun _ => ih

theorem yields_settle (items : List Item) :
    (settle items).Yields fun es => ∀ e ∈ es, .done e ∈ items := by
  induction items with
  | nil => exact yields_pure nofun
  | cons item items ih =>
    cases item with
    | done e =>
      refine yields_bind ih fun es hes => yields_pure fun e' he => ?_
      rcases List.mem_cons.1 he with rfl | he
      · exact List.mem_cons_self ..
      · exact List.mem_cons_of_mem _ (hes e' he)
    | opened head =>
      exact yields_then fun _ => ih.mono fun es hes e he => List.mem_cons_of_mem _ (hes e he)

theorem yields_readAll (ls : List Lexeme) : (readAll ls).Yields fun es => ∀ e ∈ es, e.ReadFrom ls := by
  refine yields_bind (yields_shift [] ls) fun stack hstack => ?_
  refine (yields_settle stack.reverse).mono fun es hes e he r hr => ?_
  have hmem := mem_stackHeads (List.mem_reverse.1 (hes e he)) hr
  rw [hstack, stackHeads, List.nil_append] at hmem
  obtain ⟨l, hl, rfl⟩ := List.mem_map.1 hmem
  obtain ⟨hl, hw⟩ := List.mem_filter.1 hl
  exact ⟨l, hl, hw, rfl⟩

end Expr

namespace Block

/-! ### Parameters -/

theorem yields_readParams (ls : List Lexeme) :
    (readParams ls).Yields fun ps => ∀ p ∈ ps, p.ReadFrom ls := by
  induction ls using readParams.induct with
  | case1 => exact yields_pure nofun
  | case2 type ls hw ih =>
    unfold readParams
    refine yields_ite (fun _ => yields_then fun _ => ?_) fun h => absurd hw h
    match ls, ih with
    | [], _ => exact yields_then fun _ => yields_pure nofun
    | name :: ls, ih =>
      simp only
      refine yields_ite (fun hn => yields_then fun _ => ?_) fun _ => ?_
      · have hcons : ∀ ps : List Param, (∀ p ∈ ps, p.ReadFrom ls) →
            ∀ p ∈ (⟨type.ref, name.ref⟩ : Param) :: ps, p.ReadFrom (type :: name :: ls) := by
          intro ps hps p hp
          rcases List.mem_cons.1 hp with rfl | hp
          · exact ⟨⟨type, by simp, hw, rfl⟩, ⟨name, by simp, hn, rfl⟩⟩
          · exact (hps p hp).mono fun l hl => by simp [hl]
        match ls, ih.1 with
        | [], _ => exact yields_pure (hcons [] nofun)
        | next :: rest, ih =>
          simp only
          refine yields_ite (fun _ => yields_bind ih.1 fun ps hps => ?_) fun _ =>
            yields_bind ih.2 fun ps hps => ?_
          · refine yields_pure (hcons ps fun p hp => ?_)
            exact (hps p hp).mono (List.subset_cons_self ..)
          · exact yields_pure (hcons ps hps)
      · refine yields_then fun _ => ih.2.mono fun ps hps p hp => ?_
        exact (hps p hp).mono fun l hl => by simp [hl]
  | case3 type ls hw ih =>
    unfold readParams
    refine yields_ite (fun h => absurd h hw) fun _ => yields_then fun _ => ih.mono fun ps hps p hp => ?_
    exact (hps p hp).mono (List.subset_cons_self ..)

theorem yields_readParamList (paren : Token.Ref) (ls : List Lexeme) :
    (readParamList paren ls).Yields fun list =>
      (∀ p ∈ list.params, p.ReadFrom ls) ∧ list.rest.Sublist ls := by
  unfold readParamList
  refine yields_bind (yields_readParams _) fun ps hps => ?_
  have hps : ∀ p ∈ ps, p.ReadFrom ls := fun p hp =>
    (hps p hp).mono (List.takeWhile_prefix _).sublist.subset
  have hdrop := (List.dropWhile_suffix (l := ls) fun l : Lexeme => l.isWord || l.isSeparator ',').sublist
  split
  · exact yields_pure ⟨hps, List.nil_sublist _⟩
  · next close rest he =>
    rw [he] at hdrop
    refine yields_ite (fun _ => yields_pure ⟨hps, ?_⟩) fun _ => yields_pure ⟨hps, hdrop⟩
    exact (List.sublist_cons_self ..).trans hdrop

/-! ### Types and terms -/

/-- The keyword that a block starts with. -/
def keyword : Block → Keyword
  | .types _ => .typeDecl
  | .term _ => .termDecl
  | .axm _ => .axiomDecl
  | .thm _ => .thmDecl

/-- The token of that keyword. -/
def head : Block → Token.Ref
  | .types b => b.keyword
  | .term b => b.keyword
  | .axm b => b.keyword
  | .thm b => b.keyword

/-- A block that is read from a section. -/
structure StandsIn (s : Section) (b : Block) : Prop where
  keyword : b.keyword = s.keyword
  head : b.head = s.head
  readFrom : b.ReadFrom s.body

theorem standsIn_readTypes (keyword : Token.Ref) (ls : List Lexeme) :
    (readTypes keyword ls).Yields (StandsIn ⟨.typeDecl, keyword, ls⟩) := by
  unfold readTypes
  have hnames : ∀ n ∈ (ls.filter (·.isWord)).map (·.ref), WordIn ls n := by
    intro n hn
    obtain ⟨l, hl, rfl⟩ := List.mem_map.1 hn
    obtain ⟨hl, hw⟩ := List.mem_filter.1 hl
    exact ⟨l, hl, hw, rfl⟩
  have hblock : ∀ span, StandsIn ⟨.typeDecl, keyword, ls⟩
      (.types ⟨keyword, (ls.filter (·.isWord)).map (·.ref), span⟩) :=
    fun span => ⟨rfl, rfl, hnames⟩
  refine yields_then fun _ => yields_ite (fun _ => yields_then fun _ => ?_) fun _ => ?_
  · exact yields_pure (hblock _)
  · exact yields_pure (hblock _)

theorem yields_readTermParams (name : Token.Ref) (ls : List Lexeme) :
    (readTermParams name ls).Yields fun r => (∀ p ∈ r.1, p.ReadFrom ls) ∧ r.2.2.Sublist ls := by
  match ls with
  | [] => exact yields_pure ⟨nofun, List.Sublist.refl _⟩
  | paren :: ls =>
    unfold readTermParams
    refine yields_ite (fun _ => ?_) fun _ => yields_pure ⟨nofun, List.Sublist.refl _⟩
    refine yields_bind (yields_readParamList paren.ref ls) fun list hlist => ?_
    have hparams : (∀ p ∈ list.params, p.ReadFrom (paren :: ls)) ∧ list.rest.Sublist (paren :: ls) :=
      ⟨fun p hp => (hlist.1 p hp).mono (List.subset_cons_self ..), hlist.2.cons _⟩
    exact yields_ite (fun _ => yields_then fun _ => yields_pure hparams) fun _ => yields_pure hparams

theorem yields_readForm (last : Token.Ref) (ls : List Lexeme) :
    (readForm last ls).Yields fun r => ∀ x ∈ r.1, ∃ l ∈ ls, x = l.ref := by
  cases ls with
  | nil => exact yields_pure (List.forall_mem_nil _)
  | cons brace ls =>
    have hmem : ∀ {form : List Lexeme}, form ⊆ ls → ∀ x ∈ form.map (·.ref), ∃ l ∈ brace :: ls, x = l.ref := by
      intro form hform x hx
      obtain ⟨l, hl, rfl⟩ := List.mem_map.1 hx
      exact ⟨l, List.mem_cons_of_mem _ (hform hl), rfl⟩
    unfold readForm
    refine yields_ite (fun _ => ?_) fun _ => yields_then fun _ => yields_pure (List.forall_mem_nil _)
    split
    · next form close after hcut =>
      obtain ⟨rfl, -, -⟩ := cutLast_eq_some hcut
      exact yields_pure (hmem (List.subset_append_left _ _))
    · exact yields_then fun _ => yields_pure (hmem (List.Subset.refl _))

theorem standsIn_readTerm (keyword : Token.Ref) (ls : List Lexeme) :
    (readTerm keyword ls).Yields fun b? => ∀ b ∈ b?, StandsIn ⟨.termDecl, keyword, ls⟩ b := by
  match ls with
  | [] => exact yields_then fun _ => yields_pure nofun
  | type :: ls =>
    unfold readTerm
    refine yields_ite (fun ht => yields_then fun _ => ?_) fun _ => yields_then fun _ => yields_pure nofun
    match ls with
    | [] => exact yields_then fun _ => yields_pure nofun
    | name :: ls =>
      refine yields_ite (fun hn => ?_) fun _ => yields_then fun _ => yields_pure nofun
      refine yields_bind (yields_readTermParams name.ref ls) fun ⟨params, last, rest⟩ hparams => ?_
      refine yields_bind (yields_readForm last rest) fun ⟨form, last⟩ hform => ?_
      have htail : ls ⊆ type :: name :: ls := fun l hl => by simp [hl]
      -- a form that is not there is the name
      have hcontent : (if form.isEmpty then [name.ref] else form) ≠ [] ∧
          ∀ r ∈ (if form.isEmpty then [name.ref] else form), ∃ l ∈ type :: name :: ls, r = l.ref := by
        split
        · exact ⟨List.cons_ne_nil _ _, fun r hr => ⟨name, by simp, List.mem_singleton.1 hr⟩⟩
        · next hne =>
          refine ⟨fun hnil => hne (List.isEmpty_iff.2 hnil), fun r hr => ?_⟩
          obtain ⟨l, hl, he⟩ := hform r hr
          exact ⟨l, htail (hparams.2.subset hl), he⟩
      have hblock : ∀ span, ∀ b ∈ some (Block.term ⟨keyword, type.ref, name.ref, params,
          if form.isEmpty then [name.ref] else form, span⟩),
          StandsIn ⟨.termDecl, keyword, type :: name :: ls⟩ b := by
        rintro span b ⟨⟩
        exact ⟨rfl, rfl, ⟨type, by simp, ht, rfl⟩, ⟨name, by simp, hn, rfl⟩,
          fun p hp => (hparams.1 p hp).mono htail, hcontent.1, hcontent.2⟩
      refine yields_ite (fun _ => yields_then fun _ => yields_then fun _ => ?_) fun _ =>
        yields_then fun _ => ?_
      · exact yields_pure (hblock _)
      · exact yields_pure (hblock _)

/-! ### Rules -/

/-- Groups that are still being read: words, different parameters each. -/
def GroupsOf (params : List Param) (ls : List Lexeme) (groups : List (List Token.Ref)) : Prop :=
  ∀ g ∈ groups, (g.map (·.text)).Nodup ∧ ∀ x ∈ g, WordIn ls x ∧ ∃ p ∈ params, p.name.text = x.text

theorem yields_readGroupLexeme {params : List Param} {ls : List Lexeme} {groups : List (List Token.Ref)}
    (h : GroupsOf params ls groups) {l : Lexeme} (hl : l ∈ ls) :
    (readGroupLexeme params groups l).Yields (GroupsOf params ls) := by
  unfold readGroupLexeme
  refine yields_ite (fun _ => yields_pure fun g hg => ?_) fun _ => yields_ite (fun hw => ?_) fun _ => h
  · rcases List.mem_cons.1 hg with rfl | hg
    · exact ⟨List.nodup_nil, nofun⟩
    · exact h g hg
  refine yields_ite (fun hp => yields_then fun _ => ?_) fun _ => yields_then fun _ => h
  have hparam : WordIn ls l.ref ∧ ∃ p ∈ params, p.name.text = l.ref.text := by
    obtain ⟨p, hp, he⟩ := List.any_eq_true.1 hp
    exact ⟨⟨l, hl, hw, rfl⟩, p, hp, beq_iff_eq.1 he⟩
  match groups with
  | [] =>
    refine yields_pure fun g hg => ?_
    rw [List.mem_singleton.1 hg]
    exact ⟨List.nodup_singleton _, fun x hx => List.mem_singleton.1 hx ▸ hparam⟩
  | group :: groups =>
    refine yields_ite (fun _ => yields_then fun _ => h) fun hnew => yields_pure fun g hg => ?_
    rcases List.mem_cons.1 hg with rfl | hg
    · obtain ⟨hnodup, hin⟩ := h group (List.mem_cons_self ..)
      refine ⟨?_, fun x hx => ?_⟩
      · rw [List.map_cons, List.nodup_cons]
        refine ⟨fun hm => hnew ?_, hnodup⟩
        obtain ⟨x, hx, he⟩ := List.mem_map.1 hm
        exact List.any_eq_true.2 ⟨x, hx, beq_iff_eq.2 he⟩
      · rcases List.mem_cons.1 hx with rfl | hx
        · exact hparam
        · exact hin x hx
    · exact h g (List.mem_cons_of_mem _ hg)

theorem yields_readGroups (params : List Param) (ls : List Lexeme) :
    (readGroups params ls).Yields fun groups =>
      ∀ g ∈ groups, GroupOf params g ∧ ∀ x ∈ g, WordIn ls x := by
  unfold readGroups
  have hnil : GroupsOf params ls [] := fun g hg => absurd hg List.not_mem_nil
  refine yields_bind (yields_foldlM (fun _ l hl h => yields_readGroupLexeme h hl) hnil) fun groups h => ?_
  refine yields_then fun _ => yields_pure fun g hg => ?_
  obtain ⟨hm, hlen⟩ := List.mem_filter.1 hg
  obtain ⟨g', hg', rfl⟩ := List.mem_map.1 (List.mem_reverse.1 hm)
  obtain ⟨hnodup, hin⟩ := h g' hg'
  refine ⟨⟨of_decide_eq_true hlen, ?_, fun x hx => (hin x (List.mem_reverse.1 hx)).2⟩,
    fun x hx => (hin x (List.mem_reverse.1 hx)).1⟩
  rw [List.map_reverse]
  exact List.nodup_reverse.2 hnodup

/-- Statements of a rule with given parameters. -/
structure Body.ReadFrom (params : List Param) (ls : List Lexeme) (body : Body) : Prop where
  targets : ∀ e ∈ body.targets, e.ReadFrom ls
  assumptions : ∀ e ∈ body.assumptions, e.ReadFrom ls
  groups : ∀ g ∈ body.distinct, GroupOf params g
  members : ∀ g ∈ body.distinct, ∀ x ∈ g, WordIn ls x

theorem yields_readStatement {params : List Param} {ls : List Lexeme} {body : Body}
    (h : body.ReadFrom params ls) {s : Section} (hs : s.body ⊆ ls) :
    (readStatement params body s).Yields (Body.ReadFrom params ls) := by
  have hread : (Expr.readAll s.body).Yields fun es => ∀ e ∈ es, e.ReadFrom ls :=
    (Expr.yields_readAll s.body).mono fun es hes e he => (hes e he).mono hs
  unfold readStatement
  split
  · refine yields_bind hread fun es hes => ?_
    have hbody : Body.ReadFrom params ls { body with targets := body.targets ++ es } :=
      { h with targets := List.forall_mem_append.2 ⟨h.targets, hes⟩ }
    exact yields_ite (fun _ => yields_then fun _ => hbody) fun _ => hbody
  · refine yields_bind hread fun es hes => ?_
    have hbody : Body.ReadFrom params ls { body with assumptions := body.assumptions ++ es } :=
      { h with assumptions := List.forall_mem_append.2 ⟨h.assumptions, hes⟩ }
    exact yields_ite (fun _ => yields_then fun _ => hbody) fun _ => hbody
  · refine yields_bind (yields_readGroups params s.body) fun groups hgroups => ?_
    have hbody : Body.ReadFrom params ls { body with distinct := body.distinct ++ groups } :=
      { h with
        groups := List.forall_mem_append.2 ⟨h.groups, fun g hg => (hgroups g hg).1⟩
        members := List.forall_mem_append.2 ⟨h.members, fun g hg x hx => ((hgroups g hg).2 x hx).mono hs⟩ }
    exact yields_ite (fun _ => yields_then fun _ => hbody) fun _ => hbody

theorem yields_readBody (params : List Param) (ls : List Lexeme) :
    (readBody params ls).Yields (Body.ReadFrom params ls) := by
  have hempty : Body.ReadFrom params ls {} :=
    ⟨List.forall_mem_nil _, List.forall_mem_nil _, List.forall_mem_nil _, List.forall_mem_nil _⟩
  unfold readBody
  refine yields_then fun _ => yields_foldlM (fun body s hs h => ?_) hempty
  exact yields_readStatement h (Section.body_subset hs)

theorem yields_readBraced (brace : Lexeme) (ls : List Lexeme) :
    (readBraced brace ls).Yields fun braced =>
      braced.inside.Sublist (brace :: ls) ∧ braced.rest.Sublist (brace :: ls) := by
  -- whether or not the opening brace is there, the closing one is looked for in `brace :: ls`
  have hcut : ∀ {ms inside rest : List Lexeme} {close : Lexeme}, ms.Sublist (brace :: ls) →
      cutFirst (·.isSeparator '}') ms = some (inside, close, rest) →
        inside.Sublist (brace :: ls) ∧ rest.Sublist (brace :: ls) := by
    intro ms inside rest close hms hc
    obtain ⟨rfl, -, -⟩ := cutFirst_eq_some hc
    exact ⟨(List.sublist_append_left _ _).trans hms,
      ((List.sublist_cons_self ..).trans (List.sublist_append_right _ _)).trans hms⟩
  have hls : (if brace.isSeparator '{' then ls else brace :: ls).Sublist (brace :: ls) := by
    split
    · exact List.sublist_cons_self ..
    · exact List.Sublist.refl _
  unfold readBraced
  dsimp only
  generalize (if brace.isSeparator '{' then ls else brace :: ls) = ms at hls
  refine yields_ite (fun _ => yields_then fun _ => ?_) fun _ => ?_
  · split
    · next inside close rest hc => exact yields_pure (hcut hls hc)
    · exact yields_then fun _ => yields_pure ⟨hls, List.nil_sublist _⟩
  · split
    · next inside close rest hc => exact yields_pure (hcut hls hc)
    · exact yields_then fun _ => yields_pure ⟨hls, List.nil_sublist _⟩

theorem yields_readRuleParams (name : Token.Ref) (ls : List Lexeme) :
    (readRuleParams name ls).Yields fun list =>
      (∀ p ∈ list.params, p.ReadFrom ls) ∧ list.rest.Sublist ls := by
  match ls with
  | [] => exact yields_then fun _ => yields_pure ⟨nofun, List.Sublist.refl _⟩
  | paren :: ls =>
    unfold readRuleParams
    refine yields_ite (fun _ => ?_) fun _ => yields_then fun _ => yields_pure ⟨nofun, List.Sublist.refl _⟩
    refine yields_bind (yields_readParamList paren.ref ls) fun list hlist => ?_
    have h : (∀ p ∈ list.params, p.ReadFrom (paren :: ls)) ∧ list.rest.Sublist (paren :: ls) :=
      ⟨fun p hp => (hlist.1 p hp).mono (List.subset_cons_self ..), hlist.2.cons _⟩
    exact yields_ite (fun _ => yields_then fun _ => yields_pure h) fun _ => yields_pure h

theorem yields_readRuleBraces (list : ParamList) :
    (readRuleBraces list).Yields fun braced =>
      braced.inside.Sublist list.rest ∧ braced.rest.Sublist list.rest := by
  unfold readRuleBraces
  split
  · exact yields_then fun _ => yields_pure ⟨List.nil_sublist _, List.nil_sublist _⟩
  · next brace ls he =>
    rw [he]
    exact yields_readBraced brace ls

theorem yields_readRule (keyword : Token.Ref) (kind : Token.Kind) (ls : List Lexeme) :
    (readRule keyword kind ls).Yields fun r? =>
      ∀ r ∈ r?, r.1.keyword = keyword ∧ r.1.ReadFrom ls ∧ r.2.Sublist ls := by
  match ls with
  | [] => exact yields_then fun _ => yields_pure nofun
  | name :: ls =>
    unfold readRule
    refine yields_ite (fun hn => yields_then fun _ => ?_) fun _ => yields_then fun _ => yields_pure nofun
    refine yields_bind (yields_readRuleParams name.ref ls) fun list hlist => ?_
    refine yields_bind (yields_readRuleBraces list) fun braced hbraced => ?_
    refine yields_bind (yields_readBody list.params braced.inside) fun body hbody => ?_
    have hinside : braced.inside ⊆ name :: ls := fun l hl =>
      List.mem_cons_of_mem _ (hlist.2.subset (hbraced.1.subset hl))
    have hrule : ∀ span, ∀ r ∈ some ((⟨keyword, name.ref, list.params, body.targets, body.assumptions,
        body.distinct, span⟩ : RuleBlock), braced.rest),
        r.1.keyword = keyword ∧ r.1.ReadFrom (name :: ls) ∧ r.2.Sublist (name :: ls) := by
      rintro span r ⟨⟩
      refine ⟨rfl, ⟨⟨name, by simp, hn, rfl⟩, fun p hp => ?_, fun e he => ?_, fun e he => ?_, hbody.groups,
        fun g hg x hx => ?_⟩, (hbraced.2.trans hlist.2).cons _⟩
      · exact (hlist.1 p hp).mono (List.subset_cons_self ..)
      · exact (hbody.targets e he).mono hinside
      · exact (hbody.assumptions e he).mono hinside
      · exact (hbody.members g hg x hx).mono hinside
    exact yields_ite (fun _ => yields_then fun _ => yields_pure (hrule _)) fun _ => yields_pure (hrule _)

theorem standsIn_readAxiom (keyword : Token.Ref) (ls : List Lexeme) :
    (readAxiom keyword ls).Yields fun b? => ∀ b ∈ b?, StandsIn ⟨.axiomDecl, keyword, ls⟩ b := by
  unfold readAxiom
  refine yields_bind (yields_readRule keyword .axiomName ls) fun r? hr => ?_
  match r? with
  | none => exact yields_pure nofun
  | some (rule, rest) =>
    obtain ⟨hkeyword, hrule, -⟩ := hr _ rfl
    refine yields_then fun _ => yields_pure ?_
    rintro b ⟨⟩
    exact ⟨rfl, hkeyword, hrule⟩

theorem yields_readEquals (name : Token.Ref) (ls : List Lexeme) :
    (readEquals name ls).Yields fun r => r.2.Sublist ls := by
  cases ls with
  | nil => exact yields_then fun _ => yields_pure (List.Sublist.refl _)
  | cons equals ls =>
    unfold readEquals
    refine yields_ite (fun _ => yields_pure (List.sublist_cons_self ..)) fun _ => ?_
    exact yields_then fun _ => yields_pure (List.Sublist.refl _)

theorem yields_readProof (last : Option Token.Ref) (ls : List Lexeme) :
    (readProof last ls).Yields fun r => ∃ inside, inside.Sublist ls ∧ r.1 = (Expr.readAll inside).value := by
  cases ls with
  | nil => exact yields_pure ⟨[], List.nil_sublist _, rfl⟩
  | cons brace ls =>
    refine yields_bind (yields_readBraced brace ls) fun braced hbraced => ?_
    exact ⟨braced.inside, hbraced.1, rfl⟩

/-- A proof is read off some of the lexemes. -/
theorem proof_readThm (keyword : Token.Ref) (ls : List Lexeme) :
    (readThm keyword ls).Yields fun b? => ∀ b, b? = some (.thm b) →
      ∃ inside, inside.Sublist ls ∧ b.proof = (Expr.readAll inside).value := by
  unfold readThm
  refine yields_bind (yields_readRule keyword .thmName ls) fun r? hr => ?_
  match r? with
  | none => exact yields_pure nofun
  | some (rule, rest) =>
    obtain ⟨-, -, hrest⟩ := hr _ rfl
    refine yields_bind (yields_readEquals rule.name rest) fun ⟨last, rest'⟩ hrest' => ?_
    refine yields_bind (yields_readProof last rest') fun ⟨proof, last, after⟩ hproof => ?_
    refine yields_then fun _ => yields_pure ?_
    rintro b ⟨⟩
    obtain ⟨inside, hinside, hproof⟩ := hproof
    exact ⟨inside, (hinside.trans hrest').trans hrest, hproof⟩

theorem standsIn_readThm (keyword : Token.Ref) (ls : List Lexeme) :
    (readThm keyword ls).Yields fun b? => ∀ b ∈ b?, StandsIn ⟨.thmDecl, keyword, ls⟩ b := by
  unfold readThm
  refine yields_bind (yields_readRule keyword .thmName ls) fun r? hr => ?_
  match r? with
  | none => exact yields_pure nofun
  | some (rule, rest) =>
    obtain ⟨hkeyword, hrule, hrest⟩ := hr _ rfl
    refine yields_bind (yields_readEquals rule.name rest) fun ⟨last, rest'⟩ hrest' => ?_
    refine yields_bind (yields_readProof last rest') fun ⟨proof, last, after⟩ hproof => ?_
    refine yields_then fun _ => yields_pure ?_
    rintro b ⟨⟩
    refine ⟨rfl, hkeyword, ⟨hrule.name, hrule.params, hrule.targets, hrule.assumptions, hrule.groups,
      hrule.members⟩, ?_⟩
    obtain ⟨inside, hinside, rfl⟩ := hproof
    exact fun e he => (Expr.yields_readAll inside e he).mono ((hinside.trans hrest').trans hrest).subset

/-! ### Blocks -/

theorem standsIn_ofSection (s : Section) : (ofSection s).Yields fun b? => ∀ b ∈ b?, StandsIn s b := by
  obtain ⟨keyword, head, body⟩ := s
  cases keyword with
  | typeDecl =>
    show (some <$> readTypes head body).Yields _
    rw [map_eq_pure_bind]
    refine yields_bind (standsIn_readTypes head body) fun b hb => yields_pure ?_
    rintro b' ⟨⟩
    exact hb
  | termDecl => exact standsIn_readTerm head body
  | axiomDecl => exact standsIn_readAxiom head body
  | thmDecl => exact standsIn_readThm head body
  | target | assume | distinct => exact yields_pure nofun

theorem standsIn_ofSections (sections : List Section) :
    (ofSections sections).Yields fun blocks => ∀ b ∈ blocks, ∃ s ∈ sections, StandsIn s b := by
  induction sections with
  | nil => exact yields_pure nofun
  | cons s sections ih =>
    unfold ofSections
    refine yields_bind (standsIn_ofSection s) fun b? hb => yields_bind ih fun blocks hblocks => ?_
    refine yields_pure fun b hm => ?_
    rcases List.mem_append.1 hm with hm | hm
    · exact ⟨s, List.mem_cons_self .., hb b (Option.mem_toList.1 hm)⟩
    · obtain ⟨s', hs', h⟩ := hblocks b hm
      exact ⟨s', List.mem_cons_of_mem _ hs', h⟩

theorem exists_section {tokens : List Token} {b : Block} (h : b ∈ (readAll tokens).value) :
    ∃ s ∈ (Section.split Keyword.startsBlock (Lexeme.ofTokens tokens)).2, StandsIn s b :=
  standsIn_ofSections _ b h

theorem readFrom_of_mem_readAll {tokens : List Token} {b : Block}
    (h : b ∈ (readAll tokens).value) : b.ReadFrom (Lexeme.ofTokens tokens) := by
  obtain ⟨s, hs, hb⟩ := exists_section h
  exact hb.readFrom.mono (Section.body_subset hs)

end Block

end Sequitur
