/-!
# Counting numbers

Binomial coefficients, factorials and Eulerian numbers, as they occur in the moments of the
distributions and in the closed forms of recurrences.
-/

set_option autoImplicit false

namespace ProbLoop.Number

/-- The product `n / 1 * (n - 1) / 2 * …` over the smaller of `k` and `n - k`; every partial
product is itself a binomial coefficient, so each division is exact. -/
def binomial (n k : Nat) : Nat :=
  if n < k then 0
  else (List.range (min k (n - k))).foldl (fun acc i => acc * (n - i) / (i + 1)) 1

def factorial : Nat → Nat
  | 0 => 1
  | k + 1 => (k + 1) * factorial k

/-- The number of permutations of `k` items with `i` descents, for every `i`. -/
def eulerianRow : Nat → List Nat
  | 0 => [1]
  | k + 1 =>
    let row := eulerianRow k
    (List.range (k + 1)).map fun i =>
      (i + 1) * row.getD i 0 + (if i = 0 then 0 else (k + 1 - i) * row.getD (i - 1) 0)

end ProbLoop.Number
