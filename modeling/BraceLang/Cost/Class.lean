/-!
# `Cost.Class` — classes of growth

The classes by which time and space are estimated, from constant to factorial growth. They are
ordered by how fast they grow, and numbered from 1 in this order.
-/

namespace BraceLang.Cost

/-- A class of growth in the size `n` of the input. -/
inductive Class
  | constant
  | logarithmic
  | linear
  | linearithmic
  | quadratic
  | cubic
  | exponential
  | factorial
  deriving DecidableEq, Repr, Inhabited

namespace Class

/-- Every class, from the slowest growth to the fastest. -/
def all : List Class :=
  [.constant, .logarithmic, .linear, .linearithmic, .quadratic, .cubic, .exponential, .factorial]

/-- The number of a class. -/
def ordinal : Class → Nat
  | .constant => 1
  | .logarithmic => 2
  | .linear => 3
  | .linearithmic => 4
  | .quadratic => 5
  | .cubic => 6
  | .exponential => 7
  | .factorial => 8

/-- The class with a number. -/
def ofOrdinal? (n : Nat) : Option Class := all.find? (·.ordinal == n)

/-- The written form of a class. -/
def bigO : Class → String
  | .constant => "O(1)"
  | .logarithmic => "O(log n)"
  | .linear => "O(n)"
  | .linearithmic => "O(n log n)"
  | .quadratic => "O(n²)"
  | .cubic => "O(n³)"
  | .exponential => "O(2ⁿ)"
  | .factorial => "O(n!)"

instance : ToString Class := ⟨bigO⟩

/-- A class grows no faster than another if its number is no greater. -/
instance : LE Class := ⟨fun a b => a.ordinal ≤ b.ordinal⟩

instance (a b : Class) : Decidable (a ≤ b) := inferInstanceAs (Decidable (a.ordinal ≤ b.ordinal))

/-- The number of a class leads back to it. -/
theorem ofOrdinal?_ordinal (c : Class) : ofOrdinal? c.ordinal = some c := by
  cases c <;> rfl

end Class

end BraceLang.Cost
