import Sequitur.Token

/-!
Diagnostics, and the notes that reading and elaborating leave behind. A computation of type
`Noted α` yields a value together with the faults it found and the marks it puts on tokens, each in
the order in which they arose. It only ever appends: nothing reads the notes back, so what a later
part of a text does cannot change the notes of an earlier part.
-/

namespace Sequitur

/-- A fault at a token. -/
structure Diagnostic where
  fault : Fault
  /-- Index of the token. -/
  token : Nat
  span : Span
deriving DecidableEq, Repr, Inhabited

namespace Diagnostic

/-- Order by the start, then by the end of the span. -/
def comparePlace (d e : Diagnostic) : Ordering :=
  (d.span.start.comparePlace e.span.start).then (d.span.stop.comparePlace e.span.stop)

def render (d : Diagnostic) : String :=
  d.span.start.render ++ ": " ++ d.fault.message

/-- By place; diagnostics at the same place keep their order. -/
def sort (ds : List Diagnostic) : List Diagnostic :=
  ds.mergeSort fun d e => d.comparePlace e != .gt

end Diagnostic

/-- A change to one token of the stream. -/
inductive Mark where
  | refine (token : Nat) (kind : Token.Kind)
  | comment (token : Nat) (text : String)
deriving DecidableEq, Repr

namespace Mark

def apply (tokens : Array Token) : Mark → Array Token
  | .refine i kind => tokens.modify i fun t => { t with kind }
  | .comment i text => tokens.modify i fun t => { t with comment := some text }

/-- Marks take effect in order, so the last one on a token wins. -/
def applyAll (marks : List Mark) (tokens : Array Token) : Array Token :=
  marks.foldl apply tokens

@[simp] theorem size_apply (m : Mark) (tokens : Array Token) : (apply tokens m).size = tokens.size := by
  cases m <;> simp [apply]

@[simp] theorem size_applyAll (marks : List Mark) (tokens : Array Token) :
    (applyAll marks tokens).size = tokens.size := by
  induction marks generalizing tokens with
  | nil => rfl
  | cons m marks ih => exact (ih _).trans (size_apply m tokens)

end Mark

structure Notes where
  diagnostics : List Diagnostic := []
  marks : List Mark := []
deriving DecidableEq, Repr

namespace Notes

instance : EmptyCollection Notes := ⟨{}⟩

instance : Append Notes :=
  ⟨fun m n => ⟨m.diagnostics ++ n.diagnostics, m.marks ++ n.marks⟩⟩

@[simp] theorem diagnostics_append (m n : Notes) :
    (m ++ n).diagnostics = m.diagnostics ++ n.diagnostics := rfl

@[simp] theorem marks_append (m n : Notes) : (m ++ n).marks = m.marks ++ n.marks := rfl

@[simp] theorem diagnostics_empty : (∅ : Notes).diagnostics = [] := rfl

@[simp] theorem marks_empty : (∅ : Notes).marks = [] := rfl

@[ext] theorem ext {m n : Notes} (hd : m.diagnostics = n.diagnostics) (hm : m.marks = n.marks) :
    m = n := by
  cases m; cases n; simp_all

@[simp] theorem empty_append (n : Notes) : ∅ ++ n = n := by ext1 <;> simp

@[simp] theorem append_empty (n : Notes) : n ++ ∅ = n := by ext1 <;> simp

theorem append_assoc (l m n : Notes) : l ++ m ++ n = l ++ (m ++ n) := by ext1 <;> simp

end Notes

/-- A value and the notes taken on the way to it. -/
structure Noted (α : Type) where
  value : α
  notes : Notes

namespace Noted

variable {α β : Type}

instance : Monad Noted where
  pure a := ⟨a, ∅⟩
  bind x f := ⟨(f x.value).value, x.notes ++ (f x.value).notes⟩

@[simp] theorem value_pure (a : α) : (pure a : Noted α).value = a := rfl

@[simp] theorem notes_pure (a : α) : (pure a : Noted α).notes = ∅ := rfl

@[simp] theorem value_bind (x : Noted α) (f : α → Noted β) :
    (x >>= f).value = (f x.value).value := rfl

@[simp] theorem notes_bind (x : Noted α) (f : α → Noted β) :
    (x >>= f).notes = x.notes ++ (f x.value).notes := rfl

@[ext] theorem ext {x y : Noted α} (hv : x.value = y.value) (hn : x.notes = y.notes) : x = y := by
  cases x; cases y; simp_all

instance : LawfulMonad Noted :=
  LawfulMonad.mk' Noted (fun x => by ext1 <;> simp [Functor.map]) (fun a f => by ext1 <;> simp)
    (fun x f g => by ext1 <;> simp [Notes.append_assoc])

/-- Records a fault at a token. -/
def fault (f : Fault) (token : Token.Ref) : Noted Unit :=
  ⟨(), ⟨[⟨f, token.index, token.span⟩], []⟩⟩

/-- Settles what kind of name a token is. -/
def refine (token : Token.Ref) (kind : Token.Kind) : Noted Unit :=
  ⟨(), ⟨[], [.refine token.index kind]⟩⟩

/-- Leaves a comment beside a token. -/
def comment (token : Token.Ref) (text : String) : Noted Unit :=
  ⟨(), ⟨[], [.comment token.index text]⟩⟩

end Noted

end Sequitur
