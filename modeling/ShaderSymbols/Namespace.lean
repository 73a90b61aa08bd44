/-!
# Namespaces of identifiers

A shading-language program keeps its variables, its types and its functions
apart: one spelling may name one of each in the same scope.

## Main definitions

* `Namespace` — the three namespaces.
* `Namespace.all` — each of them once, in the order of `Namespace.index`.
* `Namespace.tag`, `Namespace.ofTag?` — the form a namespace has in a cache.
-/

namespace ShaderSymbols

/-- What kind of thing an identifier names. -/
inductive Namespace where
  /-- Variables, function parameters included. -/
  | var
  /-- Built-in types and user structs. -/
  | type
  /-- Functions, all overloads under one name. -/
  | func
  deriving DecidableEq, Repr, Inhabited

namespace Namespace

/-- Every namespace, in index order. -/
def all : List Namespace := [.var, .type, .func]

/-- The position of a namespace in `all`. -/
def index : Namespace → Nat
  | .var => 0
  | .type => 1
  | .func => 2

/-- The word for a namespace in messages. -/
def word : Namespace → String
  | .var => "variable"
  | .type => "type"
  | .func => "function"

instance : ToString Namespace := ⟨word⟩

@[simp] theorem mem_all (ns : Namespace) : ns ∈ all := by cases ns <;> decide

/-! ### Cached form -/

/-- The tag a cache file stores for a namespace. -/
def tag : Namespace → String
  | .var => "Variable"
  | .type => "Type"
  | .func => "Function"

/-- Reads a tag back; any other text is refused. -/
def ofTag? (s : String) : Option Namespace := all.find? (·.tag = s)

theorem ofTag?_tag (ns : Namespace) : ofTag? ns.tag = some ns := by cases ns <;> decide

theorem tag_of_ofTag? {s : String} {ns : Namespace} (h : ofTag? s = some ns) : ns.tag = s := by
  simpa using List.find?_some h

end Namespace
end ShaderSymbols
