import Sequitur.Term

/-!
Terms in memory. A node keeps the key, the text and the type of a term beside its children, so that they
are not computed again, and it is shared: whoever refers to a term refers to the address of its node.

Substitution goes by the keys that are kept. It makes a node only where a child has become another node,
which it tells by addresses, so a subterm in which nothing is replaced is not copied.
-/

namespace Sequitur

namespace Node

/-- What the head of a node refers to. -/
inductive Referent where
  | term (decl : TermDecl)
  /-- A parameter, or the parameter that a hole stands for. -/
  | param (param : Param)

/-- What is kept beside the children. -/
structure Label where
  head : Token.Ref
  span : Span
  referent : Referent
  /-- The name of the type. -/
  type : String
  text : String
  key : String
  isHole : Bool

end Node

structure Node extends Node.Label where
  address : Nat
  children : List Node

namespace Node

/-- The occurrence of a parameter. -/
def param (head : Token.Ref) (span : Span) (param : Param) (address : Nat) : Node where
  head
  span
  referent := .param param
  type := param.type.text
  text := param.name.text
  key := param.name.text
  isHole := false
  address
  children := []

/-- A hole of the type of a parameter. -/
def hole (head : Token.Ref) (span : Span) (param : Param) (address : Nat) : Node where
  head
  span
  referent := .param param
  type := param.type.text
  text := head.text
  key := head.text
  isHole := true
  address
  children := []

/-- A declared term applied to arguments. -/
def app (head : Token.Ref) (span : Span) (decl : TermDecl) (children : List Node) (address : Nat) :
    Node where
  head
  span
  referent := .term decl
  type := decl.type.text
  text := decl.template.render (children.map (·.text))
  key := Term.appKey decl.name.text (children.map (·.key))
  isHole := false
  address
  children

/-- A copy with other children. Only the fields of an application are computed anew. -/
def withChildren (n : Node) (children : List Node) (address : Nat) : Node :=
  match n.referent with
  | .term decl => .app n.head n.span decl children address
  | .param _ => { n with children, address }

/-- A computation that makes nodes; the state is the next free address. -/
abbrev Alloc := StateM Nat

def alloc (make : Nat → Node) : Alloc Node := modifyGet fun next => (make next, next + 1)

/-- Whether two lists hold the same nodes in memory. -/
def sameNodes (ms ns : List Node) : Bool :=
  (ms.zip ns).all fun p => p.1.address == p.2.address

mutual
def subst (σ : NameMap Node) : Node → Alloc Node
  | ⟨label, address, children⟩ =>
    match σ.get? label.key with
    | some n => pure n
    | none =>
      if children.isEmpty then pure ⟨label, address, children⟩
      else do
        let replaced ← substAll σ children
        if sameNodes children replaced then return ⟨label, address, children⟩
        else alloc (withChildren ⟨label, address, children⟩ replaced)
def substAll (σ : NameMap Node) : List Node → Alloc (List Node)
  | [] => pure []
  | n :: ns => do
    let replaced ← subst σ n
    let rest ← substAll σ ns
    return replaced :: rest
end

mutual
/-- The nodes without children, from left to right. -/
def leaves : Node → List Node
  | ⟨label, address, []⟩ => [⟨label, address, []⟩]
  | ⟨_, _, n :: ns⟩ => leaves n ++ leavesAll ns
def leavesAll : List Node → List Node
  | [] => []
  | n :: ns => leaves n ++ leavesAll ns
end

/-- The keys at the leaves, constants among them. -/
def leafKeys (n : Node) : NameSet := .ofList (n.leaves.map (·.key))

mutual
/-- The term that a node stands for: what is left if the stored fields are forgotten. -/
def toTerm : Node → Term
  | ⟨label, _, children⟩ =>
    match label.referent with
    | .term decl => .app label.head label.span decl (toTerms children)
    | .param param =>
      if label.isHole then .hole label.head label.span param else .var label.head label.span param
def toTerms : List Node → List Term
  | [] => []
  | n :: ns => toTerm n :: toTerms ns
end

end Node

mutual
/-- Puts a term into memory, with a node for every subterm. -/
def Term.store : Term → Node.Alloc Node
  | .var head span param => Node.alloc (.param head span param)
  | .hole head span param => Node.alloc (.hole head span param)
  | .app head span decl args => do
    let children ← Term.storeAll args
    Node.alloc (.app head span decl children)
def Term.storeAll : List Term → Node.Alloc (List Node)
  | [] => pure []
  | t :: ts => do
    let n ← Term.store t
    let ns ← Term.storeAll ts
    return n :: ns
end

end Sequitur
