/-!
# Powers and sums of numbers

The bounds of fields are powers of two, and sizes are summed up. Both are those of the core
library, also in modules where a monoid has powers and a semiring has a zero: a definition means
the same wherever it is read.
-/

attribute [instance (1100)] instPowNat Zero.ofOfNat0

-- A power of two literals is decided by default, and not by search.
attribute [default_instance (10001)] instPowNat
