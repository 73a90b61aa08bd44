import ShaderSymbols.Declaration.Arena
import ShaderSymbols.Symbol

/-!
# Requests to the declarations of a unit

The ways to change the declarations of a unit, as data, so that whole histories can
be run.

## Main definitions

* `DeclRequest` — one change: a new declaration, or a new overload.
* `DeclRequest.decl?`, `DeclRequest.allocated` — the declarations of a namespace that
  requests bring.
* `DeclReply`, `Declarations.reply` — what a request is answered with.
* `Declarations.perform`, `Declarations.performAll` — the declarations after one
  request, or after a list of them.
* `Declarations.accepted` — the overloads that requests add to a function.
-/

namespace ShaderSymbols

/-- One change to the declarations of a unit. -/
inductive DeclRequest where
  /-- Add a declaration. -/
  | alloc (space : Namespace) (d : Decl space)
  /-- Add an overload to a declared function. -/
  | addOverload (id : DeclId .func) (sig : Signature)

namespace DeclRequest

/-- The declaration of a namespace that a request brings. -/
def decl? (ns : Namespace) : DeclRequest → Option (Decl ns)
  | .alloc space d => (⟨space, d⟩ : Symbol Decl).payload? ns
  | .addOverload _ _ => none

/-- The overload that a request brings for the function at a position. -/
def overload? (k : Nat) : DeclRequest → Option Signature
  | .alloc _ _ => none
  | .addOverload id sig => if id.index = k then some sig else none

/-- Whether a request brings a declaration. -/
def isAlloc : DeclRequest → Bool
  | .alloc _ _ => true
  | .addOverload _ _ => false

/-- The declarations of a namespace that requests bring, in order. -/
def allocated (ns : Namespace) (rs : List DeclRequest) : List (Decl ns) :=
  rs.filterMap (·.decl? ns)

@[simp] theorem decl?_alloc_self (ns : Namespace) (d : Decl ns) :
    (alloc ns d).decl? ns = some d :=
  Symbol.payload?_self ns d

theorem decl?_alloc_of_ne {ns ns' : Namespace} (h : ns' ≠ ns) (d : Decl ns) :
    (alloc ns d).decl? ns' = none :=
  Symbol.payload?_eq_none_iff.mpr h.symm

@[simp] theorem decl?_addOverload (ns : Namespace) (id : DeclId .func) (sig : Signature) :
    (addOverload id sig).decl? ns = none := rfl

@[simp] theorem allocated_nil (ns : Namespace) : allocated ns [] = [] := rfl

@[simp] theorem allocated_cons (ns : Namespace) (r : DeclRequest) (rs : List DeclRequest) :
    allocated ns (r :: rs) = (r.decl? ns).toList ++ allocated ns rs := by
  cases h : r.decl? ns with
  | none => exact List.filterMap_cons_none h
  | some d => exact List.filterMap_cons_some h

theorem allocated_append (ns : Namespace) (rs rs' : List DeclRequest) :
    allocated ns (rs ++ rs') = allocated ns rs ++ allocated ns rs' :=
  List.filterMap_append

end DeclRequest

/-- What a request is answered with. -/
inductive DeclReply where
  /-- The handle of the declaration, or why it could not be added. -/
  | handle (space : Namespace) (r : Except ArenaFull (DeclId space))
  /-- Whether the overload was added, or that there is no such function. -/
  | added (r : Except OutOfBounds Bool)

/-- Whether the answer is that an overload was added. -/
def DeclReply.accepts : DeclReply → Bool
  | .added (.ok b) => b
  | .added (.error _) | .handle _ _ => false

namespace Declarations

/-- The declarations that an operation gives back, or those before if it failed. -/
def after {ε α : Type} (a : Declarations) : Except ε (α × Declarations) → Declarations
  | .ok (_, a') => a'
  | .error _ => a

/-- The answer to a request. -/
def reply (a : Declarations) : DeclRequest → DeclReply
  | .alloc ns d => .handle ns ((a.alloc ns d).map (·.1))
  | .addOverload id sig => .added ((a.addOverload id sig).map (·.1))

/-- The declarations after a request. -/
def perform (a : Declarations) : DeclRequest → Declarations
  | .alloc ns d => a.after (a.alloc ns d)
  | .addOverload id sig => a.after (a.addOverload id sig)

/-- The declarations after a list of requests. -/
def performAll (a : Declarations) (rs : List DeclRequest) : Declarations := rs.foldl perform a

/-- The overload that a request adds to the function at a position. -/
def added? (a : Declarations) (k : Nat) (r : DeclRequest) : Option Signature :=
  if (a.reply r).accepts then r.overload? k else none

/-- The overloads that requests add to the function at a position, in order. -/
def accepted (a : Declarations) (k : Nat) : List DeclRequest → List Signature
  | [] => []
  | r :: rs => (a.added? k r).toList ++ (a.perform r).accepted k rs

/-! ### Equations -/

@[simp] theorem performAll_nil (a : Declarations) : a.performAll [] = a := rfl

@[simp] theorem performAll_cons (a : Declarations) (r : DeclRequest) (rs : List DeclRequest) :
    a.performAll (r :: rs) = (a.perform r).performAll rs := rfl

@[simp] theorem accepted_nil (a : Declarations) (k : Nat) : a.accepted k [] = [] := rfl

@[simp] theorem accepted_cons (a : Declarations) (k : Nat) (r : DeclRequest)
    (rs : List DeclRequest) :
    a.accepted k (r :: rs) = (a.added? k r).toList ++ (a.perform r).accepted k rs := rfl

end Declarations
end ShaderSymbols
