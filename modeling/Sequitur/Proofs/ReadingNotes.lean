import Sequitur.Block.Declare
import Sequitur.Proofs.Elaborating
import Sequitur.Proofs.Reading

/-!
# Where notes are

Reading a section, and declaring what was read from it, takes notes at tokens of the section only: each
fault is at one of its lexemes, and what is refined to a kind of name is one of its words
(`Block.within_ofSection`, `Block.within_declare`). The form of a term is the exception: the form of a
constant is refined as a whole, and of other forms the lexemes that are spelled like a parameter.

No computation reads notes back, so a lemma about a reader says where its notes may be (`Sites`), and is
put together from those of its parts by `within_bind`.
-/

namespace Sequitur

/-- Where notes may be: the tokens that can have faults, and the kinds that tokens can be refined to. -/
structure Sites where
  fault : Token.Ref → Prop
  refine : Token.Ref → Token.Kind → Prop

namespace Sites

variable {S : Sites} {ls ms : List Lexeme} {r : Token.Ref}

/-- A token that can turn out to be a name of any kind. -/
structure Name (S : Sites) (r : Token.Ref) : Prop where
  fault : S.fault r
  refine : ∀ kind : Token.Kind, kind.isName = true → S.refine r kind

/-- Faults may be at some lexemes, and the words among them are names. -/
structure Cover (S : Sites) (ls : List Lexeme) : Prop where
  fault : ∀ l ∈ ls, S.fault l.ref
  refine : ∀ l ∈ ls, l.isWord = true → ∀ kind : Token.Kind, kind.isName = true → S.refine l.ref kind

namespace Cover

theorem mono (h : S.Cover ls) (hs : ms ⊆ ls) : S.Cover ms :=
  ⟨fun l hl => h.fault l (hs hl), fun l hl => h.refine l (hs hl)⟩

theorem tail {l : Lexeme} (h : S.Cover (l :: ls)) : S.Cover ls := h.mono (List.subset_cons_self ..)

theorem head {l : Lexeme} (h : S.Cover (l :: ls)) : S.fault l.ref := h.fault l (List.mem_cons_self ..)

theorem of_wordIn (h : S.Cover ls) (hr : WordIn ls r) : S.Name r := by
  obtain ⟨l, hl, hw, rfl⟩ := hr
  exact ⟨h.fault l hl, h.refine l hl hw⟩

theorem name {l : Lexeme} (h : S.Cover (l :: ls)) (hw : l.isWord = true) : S.Name l.ref :=
  h.of_wordIn ⟨l, List.mem_cons_self .., hw, rfl⟩

end Cover

end Sites

namespace Notes

variable {S : Sites} {m n : Notes} {r : Token.Ref}

/-- All notes are where they may be. -/
structure Within (n : Notes) (S : Sites) : Prop where
  diagnostics : ∀ d ∈ n.diagnostics, ∃ r, S.fault r ∧ d.At r
  refines : ∀ i kind, .refine i kind ∈ n.marks → ∃ r, S.refine r kind ∧ r.index = i

theorem within_empty (S : Sites) : Within ∅ S := ⟨nofun, nofun⟩

theorem Within.append (hm : m.Within S) (hn : n.Within S) : (m ++ n).Within S where
  diagnostics := List.forall_mem_append.2 ⟨hm.diagnostics, hn.diagnostics⟩
  refines i kind h := (List.mem_append.1 h).elim (hm.refines i kind) (hn.refines i kind)

theorem At.within (h : n.At r) (hr : S.Name r) : n.Within S where
  diagnostics d hd := ⟨r, hr.fault, h.diagnostics d hd⟩
  refines i kind hm := by
    obtain ⟨kind', hkind, he⟩ := h.marks _ hm
    cases he
    exact ⟨r, hr.refine kind hkind, rfl⟩

end Notes

namespace Noted

variable {α β : Type} {S : Sites}

abbrev Within (x : Noted α) (S : Sites) : Prop := x.notes.Within S

theorem within_pure (a : α) : (pure a : Noted α).Within S := Notes.within_empty S

theorem within_bind {Q : α → Prop} {x : Noted α} {f : α → Noted β} (hx : x.Within S) (hQ : x.Yields Q)
    (hf : ∀ a, Q a → (f a).Within S) : (x >>= f).Within S :=
  hx.append (hf x.value hQ)

theorem within_then {x : Noted α} {f : α → Noted β} (hx : x.Within S) (hf : ∀ a, (f a).Within S) :
    (x >>= f).Within S :=
  within_bind (Q := fun _ => True) hx trivial fun a _ => hf a

theorem within_fault {f : Fault} {r : Token.Ref} (h : S.fault r) : (fault f r).Within S := by
  refine ⟨fun d hd => ⟨r, h, ?_⟩, nofun⟩
  rw [List.mem_singleton.1 hd]
  exact ⟨rfl, rfl⟩

theorem within_fault_pure {f : Fault} {r : Token.Ref} {a : α} (h : S.fault r) :
    (fault f r >>= fun _ => pure a : Noted α).Within S :=
  within_then (within_fault h) fun _ => within_pure a

theorem within_refine {r : Token.Ref} {kind : Token.Kind} (h : S.refine r kind) :
    (refine r kind).Within S := by
  refine ⟨nofun, fun i kind' hm => ⟨r, ?_⟩⟩
  cases List.mem_singleton.1 hm
  exact ⟨h, rfl⟩

theorem within_comment (r : Token.Ref) (text : String) : (comment r text).Within S := by
  refine ⟨nofun, fun i kind hm => ?_⟩
  cases List.mem_singleton.1 hm

theorem within_ite {c : Prop} [Decidable c] {x y : Noted α} (hx : c → x.Within S)
    (hy : ¬c → y.Within S) : (if c then x else y).Within S :=
  iteInduction (motive := (Within · S)) hx hy

theorem within_forM {f : α → Noted Unit} {l : List α} (h : ∀ a ∈ l, (f a).Within S) :
    (l.forM f).Within S := by
  induction l with
  | nil => exact within_pure _
  | cons a l ih =>
    obtain ⟨ha, hl⟩ := List.forall_mem_cons.1 h
    exact within_then ha fun _ => ih hl

theorem within_foldlM {P : β → Prop} {f : β → α → Noted β} {l : List α}
    (hf : ∀ b, ∀ a ∈ l, P b → (f b a).Within S ∧ (f b a).Yields P) {b : β} (hb : P b) :
    (l.foldlM f b).Within S := by
  induction l generalizing b with
  | nil => exact within_pure _
  | cons a l ih =>
    obtain ⟨hwithin, hyields⟩ := hf b a (List.mem_cons_self ..) hb
    rw [List.foldlM_cons]
    exact within_bind hwithin hyields fun c hc => ih (fun b a ha => hf b a (List.mem_cons_of_mem _ ha)) hc

end Noted

open Noted

variable {S : Sites} {ls : List Lexeme}

/-! ### Expressions -/

namespace Expr

theorem within_shift {stack : List Item} (hS : S.Cover ls) (hstack : ∀ r ∈ stackHeads stack, S.Name r) :
    (shift stack ls).Within S := by
  have hword : ∀ {stack : List Item} {r : Token.Ref}, (∀ r ∈ stackHeads stack, S.Name r) → S.Name r →
      (∀ x ∈ stackHeads (.opened r :: stack), S.Name x) ∧
        ∀ x ∈ stackHeads (.done (leaf r) :: stack), S.Name x := by
    intro stack r hstack hr
    simp only [stackHeads, Item.heads, leaf, heads, headsAll, List.mem_append, List.mem_singleton]
    exact ⟨fun x hx => hx.elim (hstack x) fun he => he ▸ hr, fun x hx => hx.elim (hstack x) fun he => he ▸ hr⟩
  induction stack, ls using shift.induct with
  | case1 stack => exact within_pure _
  | case2 stack l hw =>
    rw [shift_word_singleton hw]
    exact within_pure _
  | case3 stack l hw next rest hp ih =>
    rw [shift_call hw hp]
    exact ih hS.tail.tail (hword hstack (hS.name hw)).1
  | case4 stack l hw next rest hp ih =>
    rw [shift_word hw hp]
    exact ih hS.tail (hword hstack (hS.name hw)).2
  | case5 stack l ls hw hp e stack' hc ih =>
    have hheads := stackHeads_closeCall hc
    rw [headsAll, List.append_nil] at hheads
    have hhead : e.head ∈ stackHeads stack := by
      rw [← hheads, stackHeads]
      exact List.mem_append_right _ e.head_mem_heads
    rw [shift_close hw hp hc]
    refine within_then (within_refine ((hstack _ hhead).refine _ ?_)) fun _ => ih hS.tail (hheads ▸ hstack)
    split <;> rfl
  | case6 stack l ls hw hp hc ih =>
    rw [shift_close_none hw hp hc]
    exact within_then (within_fault hS.head) fun _ => ih hS.tail hstack
  | case7 stack l ls hw hp hs ih =>
    rw [shift_comma hw hp hs]
    exact ih hS.tail hstack
  | case8 stack l ls hw hp hs ih =>
    rw [shift_unexpected hw hp hs]
    exact within_then (within_fault hS.head) fun _ => ih hS.tail hstack

theorem within_settle {items : List Item} (h : ∀ item ∈ items, ∀ r ∈ item.heads, S.fault r) :
    (settle items).Within S := by
  induction items with
  | nil => exact within_pure _
  | cons item items ih =>
    obtain ⟨hitem, hitems⟩ := List.forall_mem_cons.1 h
    cases item with
    | done e => exact within_then (ih hitems) fun _ => within_pure _
    | opened head =>
      exact within_then (within_fault (hitem head (List.mem_singleton_self head))) fun _ => ih hitems

theorem within_readAll (hS : S.Cover ls) : (readAll ls).Within S := by
  refine within_bind (within_shift hS nofun) (yields_shift [] ls) fun stack hstack => within_settle ?_
  intro item hitem r hr
  have hmem := mem_stackHeads (List.mem_reverse.1 hitem) hr
  rw [hstack, stackHeads, List.nil_append] at hmem
  obtain ⟨l, hl, rfl⟩ := List.mem_map.1 hmem
  exact hS.fault l (List.mem_filter.1 hl).1

end Expr

namespace Block

theorem within_faultAll (f : Fault) (hS : S.Cover ls) : (faultAll f ls).Within S :=
  within_forM fun l hl => within_fault (hS.fault l hl)

theorem fault_lastRef {ref : Token.Ref} (h : S.fault ref) (hS : S.Cover ls) : S.fault (lastRef ref ls) := by
  unfold lastRef
  cases hlast : ls.getLast? with
  | none => exact h
  | some l => exact hS.fault l (List.mem_of_getLast? hlast)

/-! ### Parameters -/

theorem within_readParams (hS : S.Cover ls) : (readParams ls).Within S := by
  induction ls using readParams.induct with
  | case1 => exact within_pure _
  | case2 type ls hw ih =>
    unfold readParams
    refine within_ite (fun _ => ?_) fun h => absurd hw h
    refine within_then (within_refine ((hS.name hw).refine _ rfl)) fun _ => ?_
    cases ls with
    | nil => exact within_fault_pure hS.head
    | cons name ls =>
      refine within_ite (fun hn => ?_) fun _ => ?_
      · refine within_then (within_refine ((hS.tail.name hn).refine _ rfl)) fun _ => ?_
        cases ls with
        | nil => exact within_pure _
        | cons next rest =>
          refine within_ite (fun _ => ?_) fun _ => ?_
          · exact within_then (ih.1.1 hS.tail.tail.tail) fun _ => within_pure _
          · exact within_then (ih.1.2 hS.tail.tail) fun _ => within_pure _
      · exact within_then (within_fault hS.tail.head) fun _ => ih.2 hS.tail.tail
  | case3 type ls hw ih =>
    unfold readParams
    refine within_ite (fun h => absurd h hw) fun _ => ?_
    exact within_then (within_fault hS.head) fun _ => ih hS.tail

/-- Faults of a parameter list may also be at the token where it ends. -/
theorem within_readParamList {paren : Token.Ref} (hparen : S.fault paren) (hS : S.Cover ls) :
    (readParamList paren ls).Within S ∧ (readParamList paren ls).Yields fun list => S.fault list.last := by
  have htake := hS.mono (List.takeWhile_prefix fun l : Lexeme => l.isWord || l.isSeparator ',').sublist.subset
  have hdrop := hS.mono (List.dropWhile_suffix fun l : Lexeme => l.isWord || l.isSeparator ',').sublist.subset
  have hlast := fault_lastRef hparen htake
  unfold readParamList
  constructor
  · refine within_then (within_readParams htake) fun params => ?_
    split
    · exact within_pure _
    · exact within_ite (fun _ => within_pure _) fun _ => within_pure _
  · refine yields_then fun params => ?_
    split
    · exact yields_pure hlast
    · next close rest he =>
      rw [he] at hdrop
      exact yields_ite (fun _ => yields_pure hdrop.head) fun _ => yields_pure hlast

/-! ### Types and terms -/

theorem within_readTypes {keyword : Token.Ref} (hkeyword : S.fault keyword) (hS : S.Cover ls) :
    (readTypes keyword ls).Within S := by
  unfold readTypes
  refine within_then (within_forM fun l hl => ?_) fun _ => ?_
  · refine within_ite (fun hw => ?_) fun _ => within_fault (hS.fault l hl)
    exact within_refine (hS.refine l hl hw _ rfl)
  · exact within_ite (fun _ => within_fault_pure hkeyword) fun _ => within_pure _

theorem within_readForm (last : Token.Ref) (hS : S.Cover ls) : (readForm last ls).Within S := by
  cases ls with
  | nil => exact within_pure _
  | cons brace ls =>
    unfold readForm
    refine within_ite (fun _ => ?_) fun _ => within_fault_pure hS.head
    split
    · exact within_pure _
    · exact within_fault_pure hS.head

theorem within_readTermParams (name : Token.Ref) (hS : S.Cover ls) : (readTermParams name ls).Within S := by
  cases ls with
  | nil => exact within_pure _
  | cons paren ls =>
    unfold readTermParams
    refine within_ite (fun _ => ?_) fun _ => within_pure _
    refine within_then (within_readParamList hS.head hS.tail).1 fun list => ?_
    exact within_ite (fun _ => within_fault_pure hS.head) fun _ => within_pure _

/-- The form of a constant, which has no parameters. -/
def constantForm : Block → List Token.Ref
  | .term b => if b.params.isEmpty then b.content else []
  | _ => []

theorem within_readTerm {keyword : Token.Ref} (hkeyword : S.fault keyword) (hS : S.Cover ls)
    (hconst : ∀ b, (readTerm keyword ls).value = some b → ∀ r ∈ b.constantForm, S.refine r .constName) :
    (readTerm keyword ls).Within S := by
  cases ls with
  | nil => exact within_fault_pure hkeyword
  | cons type ls =>
    unfold readTerm at hconst ⊢
    refine iteInduction (motive := fun x : Noted (Option Block) =>
      (∀ b, x.value = some b → ∀ r ∈ b.constantForm, S.refine r .constName) → x.Within S)
      (fun ht => ?_) (fun _ => ?_) hconst
    · intro hconst
      refine within_then (within_refine ((hS.name ht).refine _ rfl)) fun _ => ?_
      cases ls with
      | nil => exact within_fault_pure hS.head
      | cons name ls =>
        rw [value_bind] at hconst
        refine iteInduction (motive := fun x : Noted (Option Block) =>
          (∀ b, x.value = some b → ∀ r ∈ b.constantForm, S.refine r .constName) → x.Within S)
          (fun hn => ?_) (fun _ => ?_) hconst
        · intro hconst
          have hname := hS.tail.name hn
          -- the block is determined by the parameters and the form, which come first
          have hrest : (readTermParams name.ref ls).value.2.2 ⊆ ls :=
            (yields_readTermParams name.ref ls).2.subset
          rw [value_bind] at hconst
          refine within_bind (within_readTermParams name.ref hS.tail.tail) (Q := fun a =>
            a = (readTermParams name.ref ls).value) rfl ?_
          rintro _ rfl
          generalize (readTermParams name.ref ls).value = head at hconst hrest
          obtain ⟨params, last, rest⟩ := head
          rw [value_bind] at hconst
          refine within_bind (within_readForm last (hS.tail.tail.mono hrest)) (Q := fun a =>
            a = (readForm last rest).value) rfl ?_
          rintro _ rfl
          generalize (readForm last rest).value = form at hconst
          obtain ⟨form, last⟩ := form
          cases params with
          | nil =>
            refine within_then (within_refine (hname.refine _ rfl)) fun _ => ?_
            refine within_then (within_forM fun r hr => within_refine (hconst _ rfl r ?_)) fun _ =>
              within_pure _
            cases form with
            | nil => exact absurd hr List.not_mem_nil
            | cons => exact hr
          | cons p params => exact within_then (within_refine (hname.refine _ rfl)) fun _ => within_pure _
        · exact fun _ => within_fault_pure hS.tail.head
    · exact fun _ => within_fault_pure hS.head

/-! ### Rules -/

theorem within_readGroupLexeme (params : List Param) (groups : List (List Token.Ref)) {l : Lexeme}
    (hl : S.fault l.ref) (hw : l.isWord = true → S.Name l.ref) :
    (readGroupLexeme params groups l).Within S := by
  unfold readGroupLexeme
  refine within_ite (fun _ => within_pure _) fun _ => within_ite (fun hword => ?_) fun _ => within_pure _
  refine within_ite (fun _ => ?_) fun _ => within_fault_pure hl
  refine within_then (within_refine ((hw hword).refine _ rfl)) fun _ => ?_
  cases groups with
  | nil => exact within_pure _
  | cons group groups =>
    exact within_ite (fun _ => within_fault_pure hl) fun _ => within_pure _

theorem within_readGroups (params : List Param) (hS : S.Cover ls) : (readGroups params ls).Within S := by
  unfold readGroups
  have hnil : GroupsOf params ls [] := fun g hg => absurd hg List.not_mem_nil
  have hstep : ∀ groups, ∀ l ∈ ls, GroupsOf params ls groups →
      (readGroupLexeme params groups l).Within S ∧
        (readGroupLexeme params groups l).Yields (GroupsOf params ls) :=
    fun groups l hl h => ⟨within_readGroupLexeme params groups (hS.fault l hl) fun hw =>
      hS.of_wordIn ⟨l, hl, hw, rfl⟩, yields_readGroupLexeme h hl⟩
  refine within_bind (within_foldlM hstep hnil)
    (yields_foldlM (fun groups l hl h => (hstep groups l hl h).2) hnil) fun groups h => ?_
  refine within_then (within_forM fun group hgroup => ?_) fun _ => within_pure _
  obtain ⟨group', hgroup', rfl⟩ := List.mem_map.1 (List.mem_reverse.1 hgroup)
  split
  · next single he =>
    have hsingle : single ∈ group' := List.mem_reverse.1 (he ▸ List.mem_singleton_self single)
    exact within_fault (hS.of_wordIn ((h group' hgroup').2 single hsingle).1).fault
  · exact within_pure _

theorem within_readStatement (params : List Param) (body : Body) {s : Section} (hhead : S.fault s.head)
    (hS : S.Cover s.body) : (readStatement params body s).Within S := by
  unfold readStatement
  split
  · refine within_then (Expr.within_readAll hS) fun es => ?_
    exact within_ite (fun _ => within_fault_pure hhead) fun _ => within_pure _
  · refine within_then (Expr.within_readAll hS) fun es => ?_
    exact within_ite (fun _ => within_fault_pure hhead) fun _ => within_pure _
  · refine within_then (within_readGroups params hS) fun groups => ?_
    exact within_ite (fun _ => within_fault_pure hhead) fun _ => within_pure _

/-- The lexemes of a part that is cut off at a keyword. -/
theorem cover_section {heads : Keyword → Bool} (hS : S.Cover ls) {s : Section}
    (hs : s ∈ (Section.split heads ls).2) : S.Cover s.lexemes := by
  refine hS.mono fun l hl => ?_
  rw [← Section.split_append heads ls]
  exact List.mem_append_right _ (List.mem_flatMap.2 ⟨s, hs, hl⟩)

theorem within_readBody (params : List Param) (hS : S.Cover ls) : (readBody params ls).Within S := by
  have hbefore : S.Cover (Section.split Keyword.startsStatement ls).1 := by
    refine hS.mono fun l hl => ?_
    rw [← Section.split_append Keyword.startsStatement ls]
    exact List.mem_append_left _ hl
  unfold readBody
  refine within_then (within_faultAll _ hbefore) fun _ => ?_
  refine within_foldlM (P := fun _ => True) (fun body s hs _ => ⟨?_, trivial⟩) trivial
  have hcover := cover_section hS hs
  exact within_readStatement params body hcover.head hcover.tail

/-- What is between braces ends at a token of the block. -/
theorem within_readBraced {brace : Lexeme} (hS : S.Cover (brace :: ls)) :
    (readBraced brace ls).Within S ∧ (readBraced brace ls).Yields fun braced => S.fault braced.last := by
  have hls : S.Cover (if brace.isSeparator '{' then ls else brace :: ls) := by
    split
    · exact hS.tail
    · exact hS
  have hclose : ∀ {ms inside rest : List Lexeme} {close : Lexeme}, S.Cover ms →
      cutFirst (·.isSeparator '}') ms = some (inside, close, rest) → S.fault close.ref := by
    intro ms inside rest close hms hc
    obtain ⟨rfl, -, -⟩ := cutFirst_eq_some hc
    exact hms.fault close (by simp)
  unfold readBraced
  dsimp only
  generalize (if brace.isSeparator '{' then ls else brace :: ls) = ms at hls
  cases hc : cutFirst (·.isSeparator '}') ms with
  | none =>
    have hyields := fault_lastRef hS.head hls
    constructor
    · exact within_ite (fun _ => within_then (within_fault hS.head) fun _ => within_fault_pure hS.head)
        fun _ => within_fault_pure hS.head
    · exact yields_ite (fun _ => yields_then fun _ => yields_then fun _ => yields_pure hyields)
        fun _ => yields_then fun _ => yields_pure hyields
  | some cut =>
    have hyields := hclose hls hc
    constructor
    · exact within_ite (fun _ => within_then (within_fault hS.head) fun _ => within_pure _)
        fun _ => within_pure _
    · exact yields_ite (fun _ => yields_then fun _ => yields_pure hyields) fun _ => yields_pure hyields

theorem within_readRuleParams {name : Token.Ref} (hname : S.fault name) (hS : S.Cover ls) :
    (readRuleParams name ls).Within S ∧ (readRuleParams name ls).Yields fun list => S.fault list.last := by
  cases ls with
  | nil => exact ⟨within_fault_pure hname, yields_then fun _ => yields_pure hname⟩
  | cons paren ls =>
    obtain ⟨hwithin, hlast⟩ := within_readParamList hS.head hS.tail
    unfold readRuleParams
    constructor
    · refine within_ite (fun _ => ?_) fun _ => within_fault_pure hname
      refine within_bind hwithin hlast fun list hlist => ?_
      exact within_ite (fun _ => within_fault_pure hlist) fun _ => within_pure _
    · refine yields_ite (fun _ => ?_) fun _ => yields_then fun _ => yields_pure hname
      refine yields_bind hlast fun list hlist => ?_
      exact yields_ite (fun _ => yields_then fun _ => yields_pure hlist) fun _ => yields_pure hlist

theorem within_readRuleBraces {list : ParamList} (hlast : S.fault list.last) (hS : S.Cover list.rest) :
    (readRuleBraces list).Within S := by
  unfold readRuleBraces
  split
  · exact within_fault_pure hlast
  · next brace ls he =>
    rw [he] at hS
    exact (within_readBraced hS).1

theorem within_readRule {keyword : Token.Ref} {kind : Token.Kind} (hkeyword : S.fault keyword)
    (hkind : kind.isName = true) (hS : S.Cover ls) : (readRule keyword kind ls).Within S := by
  cases ls with
  | nil => exact within_fault_pure hkeyword
  | cons name ls =>
    unfold readRule
    refine within_ite (fun hn => ?_) fun _ => within_fault_pure hS.head
    obtain ⟨hparams, hlast⟩ := within_readRuleParams hS.head hS.tail
    refine within_then (within_refine ((hS.name hn).refine _ hkind)) fun _ => ?_
    have hlist : (readRuleParams name.ref ls).Yields fun list => S.fault list.last ∧ list.rest ⊆ ls :=
      ⟨hlast, (yields_readRuleParams name.ref ls).2.subset⟩
    refine within_bind hparams hlist fun list hlist => ?_
    have hrest := hS.tail.mono hlist.2
    refine within_bind (within_readRuleBraces hlist.1 hrest) (yields_readRuleBraces list) ?_
    intro braced hbraced
    refine within_then (within_readBody list.params (hrest.mono hbraced.1.subset)) fun body => ?_
    exact within_ite (fun _ => within_fault_pure hS.head) fun _ => within_pure _

theorem within_readAxiom {keyword : Token.Ref} (hkeyword : S.fault keyword) (hS : S.Cover ls) :
    (readAxiom keyword ls).Within S := by
  unfold readAxiom
  refine within_bind (within_readRule hkeyword rfl hS) (yields_readRule keyword .axiomName ls) fun r? hr => ?_
  cases r? with
  | none => exact within_pure _
  | some r =>
    obtain ⟨rule, rest⟩ := r
    exact within_then (within_faultAll _ (hS.mono (hr _ rfl).2.2.subset)) fun _ => within_pure _

theorem within_readEquals {name : Token.Ref} (hname : S.fault name) : (readEquals name ls).Within S := by
  cases ls with
  | nil => exact within_fault_pure hname
  | cons equals ls =>
    unfold readEquals
    exact within_ite (fun _ => within_pure _) fun _ => within_fault_pure hname

theorem within_readProof (last : Option Token.Ref) (hS : S.Cover ls) :
    (readProof last ls).Within S ∧ (readProof last ls).Yields fun r => r.2.2 ⊆ ls := by
  cases ls with
  | nil => exact ⟨within_pure _, yields_pure (List.Subset.refl _)⟩
  | cons brace ls =>
    have hbraced := yields_readBraced brace ls
    constructor
    · refine within_bind (within_readBraced hS).1 hbraced fun braced h => ?_
      exact within_then (Expr.within_readAll (hS.mono h.1.subset)) fun _ => within_pure _
    · refine yields_bind hbraced fun braced h => yields_then fun _ => ?_
      exact yields_pure h.2.subset

theorem within_readThm {keyword : Token.Ref} (hkeyword : S.fault keyword) (hS : S.Cover ls) :
    (readThm keyword ls).Within S := by
  unfold readThm
  refine within_bind (within_readRule hkeyword rfl hS) (yields_readRule keyword .thmName ls) fun r? hr => ?_
  cases r? with
  | none => exact within_pure _
  | some r =>
    obtain ⟨rule, rest⟩ := r
    obtain ⟨-, hrule, hrest⟩ := hr _ rfl
    have hname := (hS.of_wordIn hrule.name).fault
    refine within_bind (within_readEquals hname) (yields_readEquals rule.name rest) ?_
    rintro ⟨last, rest'⟩ hrest'
    have hS' := hS.mono (hrest'.trans hrest).subset
    refine within_bind (within_readProof last hS').1 (within_readProof last hS').2 ?_
    rintro ⟨proof, last, after⟩ hafter
    exact within_then (within_faultAll _ (hS'.mono hafter)) fun _ => within_pure _

/-! ### Sections -/

/-- Reading a section takes notes at its lexemes. -/
theorem within_ofSection {s : Section} (hS : S.Cover s.lexemes)
    (hconst : ∀ b, (ofSection s).value = some b → ∀ r ∈ b.constantForm, S.refine r .constName) :
    (ofSection s).Within S := by
  obtain ⟨keyword, head, body⟩ := s
  have hhead : S.fault head := hS.head
  have hbody : S.Cover body := hS.tail
  cases keyword with
  | typeDecl =>
    show (some <$> readTypes head body).Within S
    rw [map_eq_pure_bind]
    exact within_then (within_readTypes hhead hbody) fun _ => within_pure _
  | termDecl => exact within_readTerm hhead hbody hconst
  | axiomDecl => exact within_readAxiom hhead hbody
  | thmDecl => exact within_readThm hhead hbody
  | target | assume | distinct => exact within_pure _

end Block

end Sequitur
