import Sequitur.Proofs.EarlierBlocks

/-!
# One file or two

Checking a text against the table of another one gives the same as checking both as one file, as far as
the second text goes (`Document.check_import`): its declarations print the same, its theorems are
proved or not by the same goals, and the same faults are found in the same order.
-/

namespace Sequitur

open Placed (relocate)

variable {φ : Relocation} {ρ : Template → Template} {form : Form}

/-! ### Printing -/

theorem Param.renderList_relocate (ps : List Param) : renderList (relocate φ ps) = renderList ps := by
  unfold renderList
  rw [map_relocate fun _ _ => rfl]

/-- Only the display form depends on templates. -/
theorem Term.render_relocate (hφ : form = .display → φ.template = id) (t : Term) :
    (relocate φ t).render form = t.render form := by
  cases form with
  | source => exact key_relocate t
  | display => exact text_relocate (hφ rfl) t

theorem TermDecl.render_relocate {d : TermDecl} (hφ : φ.template d.template = d.template) :
    (relocate φ d).render = d.render := by
  have hnames : (relocate φ d.params).map (·.name.text) = d.params.map (·.name.text) :=
    map_relocate fun _ _ => rfl
  show "term " ++ d.type.text ++ " " ++ d.name.text ++
      (if (relocate φ d.params).isEmpty then "" else Param.renderList (relocate φ d.params)) ++
      " \x7b" ++ (φ.template d.template).render ((relocate φ d.params).map (·.name.text)) ++ "\x7d" = _
  rw [isEmpty_relocate, Param.renderList_relocate, hnames, hφ]
  rfl

theorem Rule.render_relocate (hφ : form = .display → φ.template = id) (r : Rule) :
    (relocate φ r).render form = r.render form := by
  have hterms : ∀ (f : String → String) (ts : List Term),
      (relocate φ ts).map (fun t => f (t.render form)) = ts.map fun t => f (t.render form) :=
    fun f ts => map_relocate fun t _ => congrArg f (Term.render_relocate hφ t)
  unfold render
  show r.name.text ++ Param.renderList (relocate φ r.params) ++ " \x7b\n" ++
    String.join ((relocate φ r.targets).map fun t => "  |- " ++ t.render form ++ "\n") ++
    String.join ((relocate φ r.assumptions).map fun t => "  -| " ++ t.render form ++ "\n") ++ _ ++ _ = _
  rw [Param.renderList_relocate, hterms fun s => "  |- " ++ s ++ "\n", hterms fun s => "  -| " ++ s ++ "\n"]
  rfl

theorem Step.render_unplaced (hρ : form = .display → ρ = id) (s : Step) :
    (s.unplaced ρ).render form = s.render form := by
  obtain ⟨head, args, span, rule, targets, assumptions, distinct, violations, edits⟩ := s
  cases args with
  | nil => rfl
  | cons t ts =>
    show head.text ++ "(" ++ ", ".intercalate (Term.render form (relocate (.forget ρ) t) ::
      Term.keys (relocate (.forget ρ) ts)) ++ ")" = _
    rw [Term.render_relocate hρ, Term.keys_relocate]
    rfl

/-- Whatever becomes of the templates, all but term declarations have the same source. -/
theorem Decl.render_unplaced (hρ : form = .display → ρ = id) {d : Decl}
    (hd : ∀ t, d = .term t → ρ t.template = t.template) : (d.unplaced ρ).render form = d.render form := by
  cases d with
  | type d => rfl
  | term d => exact TermDecl.render_relocate (hd d rfl)
  | axm r => exact congrArg ("axiom " ++ ·) (r.render_relocate hρ)
  | thm t =>
    cases form with
    | display => exact congrArg ("thm " ++ ·) (t.rule.render_relocate hρ)
    | source =>
      have hsteps : (t.proof.map (Step.unplaced ρ)).map (fun s => "\n  " ++ s.render .source) =
          t.proof.map fun s => "\n  " ++ s.render .source := by
        rw [List.map_map]
        exact List.map_congr_left fun s _ => congrArg ("\n  " ++ ·) (s.render_unplaced hρ)
      show "thm " ++ (relocate (.forget ρ) t.rule).render .source ++ " = \x7b" ++
        String.join ((t.proof.map (Step.unplaced ρ)).map fun s => "\n  " ++ s.render .source) ++ _ = _
      rw [Rule.render_relocate hρ, hsteps]
      rfl

/-! ### Traces -/

/-- Whether a theorem is proved, with the keys in the trace of its proof. -/
def Decl.trace? : Decl → Option (Bool × List (List String))
  | .thm t => some (t.isProved, t.trace.map Term.keys)
  | _ => none

theorem Decl.trace?_unplaced (d : Decl) : (d.unplaced ρ).trace? = d.trace? := by
  cases d with
  | type | term | axm => rfl
  | thm t =>
    have htrace : (t.unplaced ρ).trace.map Term.keys = t.trace.map Term.keys := by
      rw [Thm.unplaced, relocate_eq_map, List.map_map]
      exact List.map_congr_left fun goals _ => Term.keys_relocate goals
    show some ((t.unplaced ρ).isProved, (t.unplaced ρ).trace.map Term.keys) = _
    rw [t.isProved_unplaced, htrace]
    rfl

namespace Document

open Token

/-- A text checked against the table of another one gives what it gives in one file with that. -/
theorem check_import (searchLimit : Nat) {t₁ t₂ : String} (h₁ : endsOpen t₁ = false)
    (h₂ : startsBlock t₂ = true) :
    ∃ ds es, (check [] searchLimit (t₁ ++ "\n" ++ t₂)).decls = (check [] searchLimit t₁).decls ++ ds ∧
      (check [] searchLimit (t₁ ++ "\n" ++ t₂)).diagnostics = (check [] searchLimit t₁).diagnostics ++ es ∧
      (∀ form, ds.map (Decl.render form) =
        (check [(check [] searchLimit t₁).table] searchLimit t₂).decls.map (Decl.render form)) ∧
      ds.map Decl.trace? =
        (check [(check [] searchLimit t₁).table] searchLimit t₂).decls.map Decl.trace? ∧
      es.map (·.fault) =
        (check [(check [] searchLimit t₁).table] searchLimit t₂).diagnostics.map (·.fault) := by
  have hagree : Scope.Agree id { imports := [(check [] searchLimit t₁).table], searchLimit }
      { table := (check [] searchLimit t₁).table, searchLimit } := by
    intro x
    refine congrArg (Option.map _) ?_
    show Option.or none (List.findSome? _ [_]) = Option.or (Table.find? _ x) none
    rw [Option.none_or, Option.or_none, List.findSome?_singleton]
  obtain ⟨-, -, -, -, -, -, -, ds, ds', hds, hds', he, -⟩ := checked_join h₁ h₂ hagree
  have hds : (check [(check [] searchLimit t₁).table] searchLimit t₂).decls = ds := hds
  refine ⟨ds', _, hds', diagnostics_join h₁ h₂ hagree, fun form => ?_, ?_, ?_⟩
  · rw [hds, Decl.map_eq_of_unplaced (fun d => Decl.render_unplaced (fun _ => rfl) fun _ _ => rfl) he]
  · rw [hds, Decl.map_eq_of_unplaced Decl.trace?_unplaced he]
  · rw [relocate_eq_map, List.map_map]
    rfl

/-- A file that is used by another one, with faults in both: of the theorems of the second file one is proved
from an axiom of the first, and the other has a step that proves nothing and one of an unknown rule. -/
theorem check_import_remedy : endsOpen unfinished = false ∧ startsBlock remedy = true ∧
    ∃ ds es, (check [] 5 (unfinished ++ "\n" ++ remedy)).decls = (check [] 5 unfinished).decls ++ ds ∧
      (check [] 5 (unfinished ++ "\n" ++ remedy)).diagnostics = (check [] 5 unfinished).diagnostics ++ es ∧
      (∀ form, ds.map (Decl.render form) =
        (check [(check [] 5 unfinished).table] 5 remedy).decls.map (Decl.render form)) ∧
      ds.map Decl.trace? = (check [(check [] 5 unfinished).table] 5 remedy).decls.map Decl.trace? ∧
      es.map (·.fault) = (check [(check [] 5 unfinished).table] 5 remedy).diagnostics.map (·.fault) ∧
      ds.map (Decl.render .display) =
        ["type V", "term W d {d}", "thm e() \x7b\n  |- c\n\x7d", "thm f() \x7b\n  |- d\n\x7d"] ∧
      ds.map Decl.trace? = [none, none, some (true, [[]]), some (false, [["d"]])] ∧
      (es.map (·.fault)).Perm [.notProved, .stepUseless, .ruleUndefined] := by
  have h₁ : endsOpen unfinished = false := by decide +kernel
  have h₂ : startsBlock remedy = true := by decide +kernel
  obtain ⟨ds, es, hdecls, hdiagnostics, hrender, htrace, hfaults⟩ := check_import 5 h₁ h₂
  refine ⟨h₁, h₂, ds, es, hdecls, hdiagnostics, hrender, htrace, hfaults, ?_, ?_, ?_⟩
  · rw [hrender]
    decide +kernel
  · rw [htrace]
    decide +kernel
  · rw [hfaults]
    refine ((List.mergeSort_perm _ _).map _).trans ?_
    decide +kernel

end Document

end Sequitur
