import Sequitur.Document

/-!
Lookup by place. The tokens of a document, its declarations and the steps of a proof stand one after
the other, so all lookups are binary searches for the end of a leading part. Main statement: the
search finds that end (`partitionPoint_eq`).
-/

namespace Sequitur

variable {α : Type}

/-- Binary search between `lo` and `hi` for the end of the leading part of `xs` on which `p` holds. -/
def bisect (p : α → Bool) (xs : Array α) (lo hi : Nat) : Nat :=
  if lo < hi then
    let mid := (lo + hi) / 2
    if (xs[mid]?).any p then bisect p xs (mid + 1) hi else bisect p xs lo mid
  else lo
termination_by hi - lo

theorem bisect_eq {p : α → Bool} {xs : Array α} {lo hi k : Nat} (hlo : lo ≤ k) (hhi : k ≤ hi)
    (hsize : hi ≤ xs.size) (h : ∀ i, ∀ hi : i < xs.size, p xs[i] = decide (i < k)) :
    bisect p xs lo hi = k := by
  fun_induction bisect p xs lo hi with
  | case1 lo hi hlt mid hp ih =>
    have hmid : mid < xs.size := by omega
    rw [Array.getElem?_eq_getElem hmid, Option.any_some, h mid hmid, decide_eq_true_eq] at hp
    exact ih (by omega) hhi hsize
  | case2 lo hi hlt mid hp ih =>
    have hmid : mid < xs.size := by omega
    rw [Array.getElem?_eq_getElem hmid, Option.any_some, h mid hmid, decide_eq_true_eq] at hp
    exact ih hlo (by omega) (by omega)
  | case3 lo hi hle => omega

/-- The length of the leading part of `xs` on which `p` holds, given that `p` holds on no element after
one on which it does not. -/
def partitionPoint (p : α → Bool) (xs : Array α) : Nat := bisect p xs 0 xs.size

theorem partitionPoint_eq {p : α → Bool} {xs : Array α} {k : Nat} (hk : k ≤ xs.size)
    (h : ∀ i, ∀ hi : i < xs.size, p xs[i] = decide (i < k)) : partitionPoint p xs = k :=
  bisect_eq (Nat.zero_le k) hk (Nat.le_refl _) h

/-- The element whose span contains a place, among elements that stand one after the other. -/
def findAt? (span : α → Span) (xs : Array α) (p : Position) : Option α :=
  (xs[partitionPoint (fun x => (span x).locate p == .lt) xs]?).filter fun x => (span x).contains p

namespace Document

def declAt? (d : Document) (p : Position) : Option Decl := findAt? Decl.span d.decls.toArray p

def tokenAt? (d : Document) (p : Position) : Option Token := findAt? Token.span d.tokens p

/-- The tokens that overlap a span. -/
def tokensIn (d : Document) (s : Span) : Array Token :=
  d.tokens.extract (partitionPoint (fun t => t.span.stop.placeLE s.start) d.tokens)
    (partitionPoint (fun t => t.span.start.placeLT s.stop) d.tokens)

/-- The theorem of a name. -/
def thm? (d : Document) (name : String) : Option Thm :=
  match d.table.find? name with
  | some (.thm t) => some t
  | _ => none

end Document

namespace Thm

/-- The goals that are left at a place in a proof: those after the last step that ends there or
before, or the targets of the theorem if none does. -/
def goalsAt (t : Thm) (p : Position) : List Term :=
  match partitionPoint (fun s => s.span.stop.placeLE p) t.proof.toArray with
  | 0 => t.rule.targets
  | done + 1 => t.trace[done]?.getD []

end Thm

end Sequitur
