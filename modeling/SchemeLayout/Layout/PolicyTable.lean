import SchemeLayout.Layout.Policy

/-!
The table that gives each head symbol its policy.

Symbols are compared by their exact text; a symbol without an entry has the
standard policy.
-/

set_option autoImplicit false

namespace SchemeLayout

structure PolicyTable where
  entries : List (String × Policy)
  deriving Repr

namespace PolicyTable

def empty : PolicyTable := ⟨[]⟩

def find? (table : PolicyTable) (symbol : String) : Option Policy :=
  (table.entries.find? fun entry => entry.1 = symbol).map Prod.snd

def policyFor (table : PolicyTable) (symbol : String) : Policy :=
  (table.find? symbol).getD .standard

/-- Give a symbol an entry, in place of the one it may have. -/
def insert (table : PolicyTable) (symbol : String) (policy : Policy) : PolicyTable :=
  ⟨(symbol, policy) :: table.entries.filter fun entry => entry.1 ≠ symbol⟩

/-- Insert entries in order, so that the last one for a symbol stays. -/
def insertAll (table : PolicyTable) (entries : List (String × Policy)) : PolicyTable :=
  entries.foldl (fun extended entry => extended.insert entry.1 entry.2) table

@[simp] theorem find?_empty (symbol : String) : empty.find? symbol = none := rfl

theorem find?_insert (table : PolicyTable) (symbol other : String) (policy : Policy) :
    (table.insert symbol policy).find? other =
      if other = symbol then some policy else table.find? other := by
  by_cases same : other = symbol
  · simp [find?, insert, same]
  · have different : symbol ≠ other := fun equal => same equal.symm
    have kept : ∀ entry : String × Policy,
        (entry.1 ≠ symbol ∧ entry.1 = other) = (entry.1 = other) := by
      intro entry
      rw [eq_iff_iff]
      exact ⟨And.right, fun isOther => ⟨fun isSymbol => same (isOther ▸ isSymbol), isOther⟩⟩
    simp only [find?, insert, same, if_false, List.find?_cons, different, decide_false,
      List.find?_filter, decide_eq_true_eq, kept]

theorem policyFor_insert (table : PolicyTable) (symbol other : String) (policy : Policy) :
    (table.insert symbol policy).policyFor other =
      if other = symbol then policy else table.policyFor other := by
  unfold policyFor
  rw [find?_insert]
  split <;> rfl

def symbols (table : PolicyTable) : List String := table.entries.map Prod.fst

theorem find?_eq_none_of_not_mem {table : PolicyTable} {symbol : String}
    (absent : symbol ∉ table.symbols) : table.find? symbol = none := by
  have missing : table.entries.find? (fun entry => entry.1 = symbol) = none := by
    rw [List.find?_eq_none]
    intro entry membership
    rw [decide_eq_true_eq]
    intro same
    exact absent (List.mem_map.mpr ⟨entry, membership, same⟩)
  rw [find?, missing, Option.map_none]

def sameEntries (table other : PolicyTable) : Bool :=
  (table.symbols ++ other.symbols).all fun symbol => table.find? symbol == other.find? symbol

end PolicyTable

end SchemeLayout
