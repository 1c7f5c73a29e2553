/-!
# Sorted association lists

Keys occur once and in increasing order, so two lists that give every key the same value are
equal. Both monomials (symbols with exponents) and expressions (monomials with coefficients) are
kept this way.
-/

set_option autoImplicit false

namespace ProbLoop.Assoc

variable {κ ν : Type}

/-- The entry at the front, if there is one. -/
def consSome (key : κ) : Option ν → List (κ × ν) → List (κ × ν)
  | none, rest => rest
  | some value, rest => (key, value) :: rest

/-- Replaces the value of one key, where `none` stands for its absence. -/
def alter (cmp : κ → κ → Ordering) (key : κ) (change : Option ν → Option ν) :
    List (κ × ν) → List (κ × ν)
  | [] => consSome key (change none) []
  | (k, v) :: rest =>
    match cmp key k with
    | .lt => consSome key (change none) ((k, v) :: rest)
    | .eq => consSome k (change (some v)) rest
    | .gt => (k, v) :: alter cmp key change rest

/-- Places one entry into the second list and goes on with `mergeRest` from there. -/
def mergeOne (cmp : κ → κ → Ordering) (join : ν → ν → Option ν) (key : κ) (value : ν)
    (mergeRest : List (κ × ν) → List (κ × ν)) : List (κ × ν) → List (κ × ν)
  | [] => (key, value) :: mergeRest []
  | (k, v) :: rest =>
    match cmp key k with
    | .lt => (key, value) :: mergeRest ((k, v) :: rest)
    | .eq => consSome key (join value v) (mergeRest rest)
    | .gt => (k, v) :: mergeOne cmp join key value mergeRest rest

/-- All entries of both lists; `join` decides what becomes of a key that has two values. -/
def merge (cmp : κ → κ → Ordering) (join : ν → ν → Option ν) :
    List (κ × ν) → List (κ × ν) → List (κ × ν)
  | [] => fun right => right
  | (key, value) :: rest => mergeOne cmp join key value (merge cmp join rest)

def find? [DecidableEq κ] (key : κ) : List (κ × ν) → Option ν
  | [] => none
  | (k, v) :: rest => if k = key then some v else find? key rest

/-- Entries are compared one after the other, and a list that ends first is smaller. -/
def cmpEntries (cmp : κ → κ → Ordering) (cmpValue : ν → ν → Ordering) :
    List (κ × ν) → List (κ × ν) → Ordering
  | [], [] => .eq
  | [], _ :: _ => .lt
  | _ :: _, [] => .gt
  | (k, v) :: rest, (k', v') :: rest' =>
    ((cmp k k').then (cmpValue v v')).then (cmpEntries cmp cmpValue rest rest')

end ProbLoop.Assoc
