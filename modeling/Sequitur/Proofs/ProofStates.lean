import Sequitur.Proofs.Hygiene
import Sequitur.Proofs.Lookups
import Sequitur.Proofs.Nesting
import Sequitur.Proofs.Replaying

/-!
# Goals at a place

The goals at a place in a proof are those of a run of the steps that stop there or before
(`Document.shows_check`). Expressions that name no rule are no steps, and a step that proves nothing
leaves the goals as they are, so there are goals for every step. The steps stop one after the other,
however the expressions of the proof were put together, since expressions stand in the order of the text
(`Expr.ordered_readAll`).
-/

namespace Sequitur

open Noted

/-- A proof is read off some of the lexemes of the text. -/
theorem Block.exists_readAll_proof {text : String} {b : ThmBlock}
    (hb : .thm b ∈ (readAll (Token.scan text)).value) :
    ∃ ls, ls.Sublist (Lexeme.ofTokens (Token.scan text)) ∧ b.proof = (Expr.readAll ls).value := by
  obtain ⟨s, hs, hsome⟩ := exists_ofSection hb
  have hkeyword := (standsIn_ofSection s _ hsome).keyword
  obtain ⟨keyword, head, body⟩ := s
  cases hkeyword
  obtain ⟨inside, hinside, hproof⟩ := proof_readThm head body b hsome
  exact ⟨inside, (hinside.cons _).trans (Section.lexemes_sublist hs), hproof⟩

/-- The expressions of a proof stand one after the other. -/
theorem Block.ordered_proof {text : String} {b : ThmBlock} (hb : .thm b ∈ (readAll (Token.scan text)).value) :
    Span.Ordered (b.proof.map (·.span)) := by
  obtain ⟨ls, hls, hproof⟩ := exists_readAll_proof hb
  rw [hproof]
  exact Expr.ordered_readAll ((Lexeme.ordered_spans text).sublist (hls.map _))

/-! ### Goals -/

namespace Thm

/-- What is known of the goals at places in a theorem whose proof is written with some expressions. -/
structure Shows (scope : Scope) (proof : List Expr) (t : Thm) : Prop where
  /-- There is one step for each expression that names a rule. -/
  sites : t.proof.map (fun s => (s.head, s.span, s.rule)) =
    proof.filterMap fun e => (Step.rule? scope e.head.text).map fun r => (e.head, e.span, r.2)
  steps : t.proof = Thm.steps scope t.rule proof
  /-- The trace has one entry for each of them. -/
  aligned : t.Aligned
  /-- The order of the proof is that of the text. -/
  ordered : Span.Ordered (proof.map (·.span))
  /-- What is looked up is there. -/
  found : ∀ (p : Position) (done : Nat),
    partitionPoint (fun s : Step => s.span.stop.placeLE p) t.proof.toArray = done + 1 →
      ∃ s, t.proof[done]? = some s ∧ t.trace[done]? = some (t.goalsAt p)
  goalsAt : ∀ p : Position, t.goalsAt p = Goals.run (.ofList (Term.keys t.rule.assumptions)) t.rule.targets
    ((Thm.steps scope t.rule proof).filter (·.span.stop.placeLE p))

section

variable {t : Thm} {p : Position}

/-- No more steps are done than there are. -/
theorem goalsAt_of_done (halign : t.Aligned) (h : Span.Rising (t.proof.map (·.span))) {done : Nat}
    (hdone : partitionPoint (fun s : Step => s.span.stop.placeLE p) t.proof.toArray = done + 1) :
    ∃ s, t.proof[done]? = some s ∧ t.trace[done]? = some (t.goalsAt p) := by
  have hlt : done < t.proof.length := by
    rw [(leading_stop h p).partitionPoint_toArray] at hdone
    have hle := List.countP_le_length (p := fun s : Step => s.span.stop.placeLE p) (l := t.proof)
    omega
  have htrace := List.getElem?_eq_getElem (halign.trace ▸ hlt : done < t.trace.length)
  refine ⟨t.proof[done], List.getElem?_eq_getElem hlt, ?_⟩
  simp only [goalsAt, hdone, htrace, Option.getD_some]

/-- The goals are those after the last step that stops early enough. -/
theorem goalsAt_eq (halign : t.Aligned) (h : Span.Rising (t.proof.map (·.span))) (p : Position) :
    t.goalsAt p =
      (t.trace.take (t.proof.countP (·.span.stop.placeLE p))).getLast?.getD t.rule.targets := by
  rw [← (leading_stop h p).partitionPoint_toArray]
  cases hdone : partitionPoint (fun s : Step => s.span.stop.placeLE p) t.proof.toArray with
  | zero =>
    rw [goalsAt, hdone]
    rfl
  | succ done =>
    obtain ⟨s, -, htrace⟩ := goalsAt_of_done halign h hdone
    rw [List.take_add_one, htrace, Option.toList_some, List.getLast?_concat]
    rfl

end

variable (scope : Scope) (rule : Rule) {proof : List Expr}

theorem sites_prove (proof : List Expr) :
    (prove scope rule proof).value.proof.map (fun s => (s.head, s.span, s.rule)) =
      proof.filterMap fun e => (Step.rule? scope e.head.text).map fun r => (e.head, e.span, r.2) := by
  obtain ⟨cs, -, helaborates⟩ := exists_elaborates scope rule proof
  rw [proof_prove, helaborates.sites]

/-- Steps that name no rule are left out, and the others are in the order of the text. -/
theorem ordered_prove (h : Span.Ordered (proof.map (·.span))) :
    Span.Ordered ((prove scope rule proof).value.proof.map (·.span)) := by
  have hspans : (prove scope rule proof).value.proof.map (·.span) =
      (proof.filterMap fun e => (Step.rule? scope e.head.text).map fun r => (e.head, e.span, r.2)).map (·.2.1) := by
    rw [← sites_prove, List.map_map]
    rfl
  rw [hspans]
  refine h.sublist ?_
  clear h hspans
  induction proof with
  | nil => exact .slnil
  | cons e es ih =>
    rw [List.filterMap_cons]
    cases Step.rule? scope e.head.text with
    | none => exact ih.cons _
    | some r => exact ih.cons_cons _

/-- The goals that are shown in a theorem are those of runs of its steps. -/
theorem shows_prove (h : Span.Ordered (proof.map (·.span))) :
    (prove scope rule proof).value.Shows scope proof := by
  have hrising : Span.Rising ((prove scope rule proof).value.proof.map (·.span)) :=
    (ordered_prove scope rule h).rising
  have halign : (prove scope rule proof).value.Aligned := (yields_prove scope rule proof).2.2
  refine ⟨sites_prove scope rule proof, proof_prove scope rule proof, halign, h,
    fun p done => goalsAt_of_done halign hrising, fun p => ?_⟩
  -- the steps that stop early enough are the first ones
  have htake := (leading_stop hrising p).take_countP
  have hsteps : steps scope (prove scope rule proof).value.rule proof = (prove scope rule proof).value.proof := rfl
  rw [goalsAt_eq halign hrising, hsteps, ← htake]
  exact Step.yields_goals_take rule (created scope rule proof) rule.targets (steps scope rule proof) _

end Thm

namespace Document

variable {imports : List Table} {searchLimit i : Nat} {text : String} {t : Thm}

/-- At every place in a theorem of a text, the goals are those of a run of the steps that stop there or
before. -/
theorem shows_check (h : (check imports searchLimit text).decls[i]? = some (.thm t)) :
    ∃ b : ThmBlock, .thm b ∈ (Block.readAll (Token.scan text)).value ∧ b.name = t.rule.name ∧
      t.Shows (scopeAt imports searchLimit text i) b.proof := by
  obtain ⟨b, hb, hrule, ht⟩ := exists_block_of_thm h
  have hname := RuleBlock.yields_name_rule? (scopeAt imports searchLimit text i) b.toRuleBlock t.rule hrule
  refine ⟨b, hb, hname.symm, ?_⟩
  have hshows := Thm.shows_prove (scopeAt imports searchLimit text i) t.rule (Block.ordered_proof hb)
  rwa [ht] at hshows

/-- A proof with an unknown rule, a step that proves nothing, a stray parenthesis and a call that is not closed. -/
def stumbling : String :=
  "type W term W f(W x) axiom mp(W p) {-| f(p) |- p} axiom id(W p) {|- f(p)} " ++
    "thm t(W x) {|- x} = {mp(x) nope(x) mp(x) ) id(x) id(}"

theorem shows_stumbling :
    ∃ t, (check [] 5 stumbling).decls[4]? = some (.thm t) ∧
      t.trace.map Term.keys = [["f(x)"], ["f(x)"], []] ∧
      ∃ b : ThmBlock, .thm b ∈ (Block.readAll (Token.scan stumbling)).value ∧ b.name = t.rule.name ∧
        t.Shows (scopeAt [] 5 stumbling 4) b.proof := by
  have hthm : ∃ t, (check [] 5 stumbling).decls[4]? = some (.thm t) ∧
      t.trace.map Term.keys = [["f(x)"], ["f(x)"], []] :=
    Decl.exists_thm_of_any (by decide +kernel)
  obtain ⟨t, ht, hgoals⟩ := hthm
  exact ⟨t, ht, hgoals, shows_check ht⟩

end Document

end Sequitur
