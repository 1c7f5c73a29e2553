import ProbLoop.Assoc

/-!
# Folds and order of sorted association lists

A list of entries is read through a fold whose steps commute. Merging two lists composes their folds,
and altering an entry composes the fold with one more step, whatever the order of the keys; that the
keys stay sorted is shown apart from it.
-/

set_option autoImplicit false

namespace ProbLoop.Assoc

variable {κ ν β : Type} {cmp : κ → κ → Ordering}

/-- What a value that may be missing does in a fold. -/
def act (f : κ × ν → β → β) (key : κ) : Option ν → β → β
  | none, x => x
  | some v, x => f (key, v) x

theorem foldr_consSome (f : κ × ν → β → β) (key : κ) (o : Option ν) (l : List (κ × ν)) (x : β) :
    (consSome key o l).foldr f x = act f key o (l.foldr f x) := by
  cases o <;> rfl

theorem foldr_comm (f g : κ × ν → β → β) (p : κ × ν)
    (hc : ∀ p q x, g p (f q x) = f q (g p x)) (l : List (κ × ν)) (x : β) :
    l.foldr f (g p x) = g p (l.foldr f x) := by
  induction l with
  | nil => rfl
  | cons q l ih => simp only [List.foldr_cons, ih, hc]

theorem merge_nil (join : ν → ν → Option ν) (l : List (κ × ν)) : merge cmp join l [] = l := by
  induction l with
  | nil => rfl
  | cons p l ih => rw [merge, mergeOne, ih]

section Merge

variable [Std.LawfulEqCmp cmp] (f : κ × ν → β → β) (join : ν → ν → Option ν)

theorem foldr_mergeOne (hc : ∀ p q x, f p (f q x) = f q (f p x))
    (hj : ∀ k a b x, act f k (join a b) x = f (k, a) (f (k, b) x)) (key : κ) (value : ν)
    (rest : List (κ × ν)) (mergeRest : List (κ × ν) → List (κ × ν)) (x : β)
    (hr : ∀ l, (mergeRest l).foldr f x = rest.foldr f (l.foldr f x)) (l : List (κ × ν)) :
    (mergeOne cmp join key value mergeRest l).foldr f x =
      f (key, value) (rest.foldr f (l.foldr f x)) := by
  induction l with
  | nil => simp only [mergeOne, List.foldr_cons, hr]
  | cons p l ih =>
    obtain ⟨k, v⟩ := p
    rw [mergeOne]
    cases h : cmp key k with
    | lt => simp only [List.foldr_cons, hr]
    | eq =>
      obtain rfl := Std.LawfulEqCmp.eq_of_compare h
      simp only [foldr_consSome, hr, hj, List.foldr_cons, foldr_comm f f _ hc]
    | gt =>
      simp only [List.foldr_cons, ih, foldr_comm f f _ hc]
      exact hc _ _ _

theorem foldr_merge (hc : ∀ p q x, f p (f q x) = f q (f p x))
    (hj : ∀ k a b x, act f k (join a b) x = f (k, a) (f (k, b) x)) (l r : List (κ × ν)) (x : β) :
    (merge cmp join l r).foldr f x = l.foldr f (r.foldr f x) := by
  induction l generalizing r with
  | nil => rfl
  | cons p l ih =>
    obtain ⟨k, v⟩ := p
    exact foldr_mergeOne f join hc hj k v l _ x ih r

end Merge

theorem foldr_alter [Std.LawfulEqCmp cmp] (f : κ × ν → β → β) (g : β → β) (key : κ)
    (change : Option ν → Option ν) (hn : ∀ x, act f key (change none) x = g x)
    (hs : ∀ v x, act f key (change (some v)) x = g (f (key, v) x))
    (hc : ∀ p x, f p (g x) = g (f p x)) (l : List (κ × ν)) (x : β) :
    (alter cmp key change l).foldr f x = g (l.foldr f x) := by
  induction l with
  | nil => simp only [alter, foldr_consSome, hn, List.foldr_nil]
  | cons p l ih =>
    obtain ⟨k, v⟩ := p
    rw [alter]
    cases h : cmp key k with
    | lt => simp only [foldr_consSome, hn, List.foldr_cons]
    | eq =>
      obtain rfl := Std.LawfulEqCmp.eq_of_compare h
      simp only [foldr_consSome, hs, List.foldr_cons]
    | gt => simp only [List.foldr_cons, ih, hc]

theorem forall_consSome {Q : κ × ν → Prop} {key : κ} {o : Option ν} {l : List (κ × ν)}
    (ho : ∀ v, o = some v → Q (key, v)) (hl : ∀ p ∈ l, Q p) : ∀ p ∈ consSome key o l, Q p := by
  cases o with
  | none => exact hl
  | some v => exact List.forall_mem_cons.mpr ⟨ho v rfl, hl⟩

theorem forall_mergeOne {Q : κ × ν → Prop} [Std.LawfulEqCmp cmp] {join : ν → ν → Option ν}
    (hj : ∀ k a b c, Q (k, a) → Q (k, b) → join a b = some c → Q (k, c)) {key : κ} {value : ν}
    (hv : Q (key, value)) {mergeRest : List (κ × ν) → List (κ × ν)}
    (hr : ∀ l, (∀ p ∈ l, Q p) → ∀ p ∈ mergeRest l, Q p) {l : List (κ × ν)} (hl : ∀ p ∈ l, Q p) :
    ∀ p ∈ mergeOne cmp join key value mergeRest l, Q p := by
  induction l with
  | nil => exact List.forall_mem_cons.mpr ⟨hv, hr [] hl⟩
  | cons p l ih =>
    obtain ⟨k, v⟩ := p
    have hp := List.forall_mem_cons.mp hl
    rw [mergeOne]
    cases h : cmp key k with
    | lt => exact List.forall_mem_cons.mpr ⟨hv, hr _ hl⟩
    | eq =>
      obtain rfl := Std.LawfulEqCmp.eq_of_compare h
      exact forall_consSome (fun c hc => hj key value v c hv hp.1 hc) (hr l hp.2)
    | gt => exact List.forall_mem_cons.mpr ⟨hp.1, ih hp.2⟩

/-- What holds of all entries of two lists, and of the entries joined from them, holds of all entries
of the merged list. -/
theorem forall_merge {Q : κ × ν → Prop} [Std.LawfulEqCmp cmp] {join : ν → ν → Option ν}
    (hj : ∀ k a b c, Q (k, a) → Q (k, b) → join a b = some c → Q (k, c)) {l r : List (κ × ν)}
    (hl : ∀ p ∈ l, Q p) (hr : ∀ p ∈ r, Q p) : ∀ p ∈ merge cmp join l r, Q p := by
  induction l generalizing r with
  | nil => exact hr
  | cons p l ih =>
    have hp := List.forall_mem_cons.mp hl
    exact forall_mergeOne hj hp.1 (fun r hr => ih hp.2 hr) hr

theorem forall_alter {Q : κ × ν → Prop} [Std.LawfulEqCmp cmp] {key : κ}
    {change : Option ν → Option ν}
    (hc : ∀ o v, (∀ w, o = some w → Q (key, w)) → change o = some v → Q (key, v))
    {l : List (κ × ν)} (hl : ∀ p ∈ l, Q p) : ∀ p ∈ alter cmp key change l, Q p := by
  induction l with
  | nil => exact forall_consSome (fun v hv => hc none v (by simp) hv) hl
  | cons p l ih =>
    obtain ⟨k, v⟩ := p
    have hp := List.forall_mem_cons.mp hl
    rw [alter]
    cases h : cmp key k with
    | lt => exact forall_consSome (fun w hw => hc none w (by simp) hw) hl
    | eq =>
      obtain rfl := Std.LawfulEqCmp.eq_of_compare h
      exact forall_consSome (fun w hw => hc (some v) w (by simpa using hp.1) hw) hp.2
    | gt => exact List.forall_mem_cons.mpr ⟨hp.1, ih hp.2⟩

/-- Keys occur once and in increasing order. -/
def Sorted (cmp : κ → κ → Ordering) (l : List (κ × ν)) : Prop :=
  l.Pairwise fun p q => cmp p.1 q.1 = .lt

theorem sorted_nil : Sorted cmp ([] : List (κ × ν)) := List.Pairwise.nil

theorem sorted_consSome {key : κ} {o : Option ν} {l : List (κ × ν)}
    (hk : ∀ p ∈ l, cmp key p.1 = .lt) (hl : Sorted cmp l) : Sorted cmp (consSome key o l) := by
  cases o with
  | none => exact hl
  | some v => exact List.pairwise_cons.mpr ⟨hk, hl⟩

section Order

variable [Std.TransCmp cmp] [Std.LawfulEqCmp cmp]

theorem sorted_mergeOne (join : ν → ν → Option ν) {key : κ} {value : ν} {rest : List (κ × ν)}
    (hk : ∀ p ∈ rest, cmp key p.1 = .lt)
    (hs : ∀ l, Sorted cmp l → Sorted cmp (merge cmp join rest l)) {l : List (κ × ν)}
    (hl : Sorted cmp l) :
    Sorted cmp (mergeOne cmp join key value (merge cmp join rest) l) := by
  induction l with
  | nil =>
    exact List.pairwise_cons.mpr ⟨forall_merge (fun _ _ _ _ h _ _ => h) hk (by simp), hs [] hl⟩
  | cons p l ih =>
    obtain ⟨k, v⟩ := p
    have hp := List.pairwise_cons.mp hl
    rw [mergeOne]
    cases h : cmp key k with
    | lt =>
      refine List.pairwise_cons.mpr ⟨forall_merge (fun _ _ _ _ h _ _ => h) hk ?_, hs _ hl⟩
      exact List.forall_mem_cons.mpr ⟨h, fun q hq => Std.TransCmp.lt_trans h (hp.1 q hq)⟩
    | eq =>
      obtain rfl := Std.LawfulEqCmp.eq_of_compare h
      exact sorted_consSome (forall_merge (fun _ _ _ _ h _ _ => h) hk hp.1) (hs l hp.2)
    | gt =>
      have hkk : cmp k key = .lt := Std.OrientedCmp.gt_iff_lt.mp h
      refine List.pairwise_cons.mpr ⟨?_, ih hp.2⟩
      refine forall_mergeOne (Q := fun q => cmp k q.1 = .lt) (fun _ _ _ _ h _ _ => h) hkk ?_ hp.1
      exact fun r hr => forall_merge (fun _ _ _ _ h _ _ => h)
        (fun q hq => Std.TransCmp.lt_trans hkk (hk q hq)) hr

theorem sorted_merge (join : ν → ν → Option ν) {l r : List (κ × ν)} (hl : Sorted cmp l)
    (hr : Sorted cmp r) : Sorted cmp (merge cmp join l r) := by
  induction l generalizing r with
  | nil => exact hr
  | cons p l ih =>
    have hp := List.pairwise_cons.mp hl
    exact sorted_mergeOne join hp.1 (fun r hr => ih hp.2 hr) hr

theorem sorted_alter (key : κ) (change : Option ν → Option ν) {l : List (κ × ν)}
    (hl : Sorted cmp l) : Sorted cmp (alter cmp key change l) := by
  induction l with
  | nil => exact sorted_consSome (by simp) hl
  | cons p l ih =>
    obtain ⟨k, v⟩ := p
    have hp := List.pairwise_cons.mp hl
    rw [alter]
    cases h : cmp key k with
    | lt =>
      refine sorted_consSome ?_ hl
      exact List.forall_mem_cons.mpr ⟨h, fun q hq => Std.TransCmp.lt_trans h (hp.1 q hq)⟩
    | eq => exact sorted_consSome hp.1 hp.2
    | gt =>
      refine List.pairwise_cons.mpr ⟨?_, ih hp.2⟩
      exact forall_alter (Q := fun q => cmp k q.1 = .lt)
        (fun _ _ _ _ => Std.OrientedCmp.gt_iff_lt.mp h) hp.1

end Order

theorem Sorted.ne_of_mem [Std.LawfulEqCmp cmp] {p : κ × ν} {l : List (κ × ν)}
    (h : Sorted cmp (p :: l)) : ∀ q ∈ l, q.1 ≠ p.1 := by
  intro q hq hqp
  have hlt := (List.pairwise_cons.mp h).1 q hq
  have heq : cmp p.1 p.1 = .eq := Std.ReflCmp.compare_self
  rw [hqp, heq] at hlt
  exact absurd hlt (by decide)

theorem Sorted.nodup [Std.LawfulEqCmp cmp] {l : List (κ × ν)} (h : Sorted cmp l) : l.Nodup := by
  induction l with
  | nil => exact List.nodup_nil
  | cons p l ih =>
    apply List.nodup_cons.mpr
    constructor
    · exact fun hp => h.ne_of_mem p hp rfl
    · exact ih (List.pairwise_cons.mp h).2

theorem find?_eq_none [DecidableEq κ] {key : κ} {l : List (κ × ν)} (h : ∀ p ∈ l, p.1 ≠ key) :
    find? key l = none := by
  induction l with
  | nil => rfl
  | cons p l ih =>
    have hp := List.forall_mem_cons.mp h
    rw [find?, if_neg hp.1, ih hp.2]

theorem notMem_of_find?_eq_none [DecidableEq κ] {key : κ} {l : List (κ × ν)}
    (h : find? key l = none) : key ∉ l.map (·.1) := by
  induction l with
  | nil => simp
  | cons p l ih =>
    rw [find?] at h
    split at h
    · simp at h
    · next hne =>
      rw [List.map_cons, List.mem_cons, not_or]
      exact ⟨Ne.symm hne, ih h⟩

theorem mem_of_find? [DecidableEq κ] {key : κ} {v : ν} {l : List (κ × ν)}
    (h : find? key l = some v) : (key, v) ∈ l := by
  induction l with
  | nil => simp [find?] at h
  | cons p l ih =>
    obtain ⟨k, w⟩ := p
    rw [find?] at h
    split at h
    · next hk => simp_all
    · exact List.mem_cons_of_mem _ (ih h)

theorem find?_of_mem [DecidableEq κ] [Std.LawfulEqCmp cmp] {key : κ} {v : ν} {l : List (κ × ν)}
    (hl : Sorted cmp l) (h : (key, v) ∈ l) : find? key l = some v := by
  induction l with
  | nil => simp at h
  | cons p l ih =>
    rcases List.mem_cons.mp h with rfl | hm
    · simp [find?]
    · obtain ⟨k, w⟩ := p
      have hne := hl.ne_of_mem _ hm
      rw [find?, if_neg (fun hk => hne hk.symm), ih (List.pairwise_cons.mp hl).2 hm]

theorem find?_of_nodup [DecidableEq κ] {key : κ} {v : ν} {l : List (κ × ν)}
    (hl : (l.map (·.1)).Nodup) (h : (key, v) ∈ l) : find? key l = some v := by
  induction l with
  | nil => cases h
  | cons p l ih =>
    rw [List.map_cons, List.nodup_cons] at hl
    rcases List.mem_cons.mp h with rfl | hm
    · simp [find?]
    · have hne : p.1 ≠ key := fun hk => hl.1 (hk ▸ List.mem_map_of_mem hm)
      rw [find?, if_neg hne, ih hl.2 hm]

theorem find?_filter [DecidableEq κ] (keep : κ → Bool) (key : κ) (l : List (κ × ν)) :
    find? key (l.filter fun p => keep p.1) = if keep key then find? key l else none := by
  induction l with
  | nil => simp [find?]
  | cons p l ih =>
    obtain ⟨k, v⟩ := p
    by_cases hk : keep k = true
    · rw [List.filter_cons_of_pos (by simpa using hk), find?, find?, ih]
      by_cases hkey : k = key
      · rw [if_pos hkey, if_pos hkey, if_pos (hkey ▸ hk)]
      · rw [if_neg hkey, if_neg hkey]
    · rw [List.filter_cons_of_neg (by simpa using hk), ih, find?]
      by_cases hkey : k = key
      · rw [if_neg (hkey ▸ hk), if_neg (hkey ▸ hk)]
      · rw [if_neg hkey]

theorem find?_eq_some [DecidableEq κ] [Std.LawfulEqCmp cmp] {key : κ} {v : ν} {l : List (κ × ν)}
    (hl : Sorted cmp l) : find? key l = some v ↔ (key, v) ∈ l :=
  ⟨mem_of_find?, find?_of_mem hl⟩

theorem find?_consSome [DecidableEq κ] [Std.LawfulEqCmp cmp] {key : κ} {o : Option ν}
    {l : List (κ × ν)} (hl : ∀ p ∈ l, cmp key p.1 = .lt) (k : κ) :
    find? k (consSome key o l) = if key = k then o else find? k l := by
  by_cases hk : key = k
  · subst hk
    have hne : ∀ p ∈ l, p.1 ≠ key := by
      intro p hp hpk
      have hself : cmp key key = .eq := Std.ReflCmp.compare_self
      have hlt := hl p hp
      rw [hpk, hself] at hlt
      exact absurd hlt (by decide)
    cases o with
    | none => rw [consSome, find?_eq_none hne, if_pos rfl]
    | some v => simp [consSome, find?]
  · cases o with
    | none => rw [consSome, if_neg hk]
    | some v => simp [consSome, find?, hk]

theorem find?_alter [DecidableEq κ] [Std.TransCmp cmp] [Std.LawfulEqCmp cmp] (key : κ)
    (change : Option ν → Option ν) {l : List (κ × ν)} (hl : Sorted cmp l) (k : κ) :
    find? k (alter cmp key change l) = if key = k then change (find? key l) else find? k l := by
  induction l with
  | nil => exact @find?_consSome _ _ cmp _ _ _ _ _ (by simp) k
  | cons p l ih =>
    obtain ⟨j, v⟩ := p
    have hp := List.pairwise_cons.mp hl
    rw [alter]
    cases h : cmp key j with
    | lt =>
      have hlt : ∀ q ∈ (j, v) :: l, cmp key q.1 = .lt :=
        List.forall_mem_cons.mpr ⟨h, fun q hq => Std.TransCmp.lt_trans h (hp.1 q hq)⟩
      have hnone : find? key ((j, v) :: l) = none := by
        have hf := find?_consSome (o := none) hlt key
        rwa [if_pos rfl] at hf
      rw [hnone]
      exact find?_consSome hlt k
    | eq =>
      obtain rfl := Std.LawfulEqCmp.eq_of_compare h
      have hf := find?_consSome (o := change (some v)) hp.1 k
      simp only [find?, if_true]
      by_cases hk : key = k
      · rw [if_pos hk] at hf ⊢
        exact hf
      · rw [if_neg hk] at hf ⊢
        rw [if_neg hk]
        exact hf
    | gt =>
      have hne : j ≠ key := by
        rintro rfl
        have hself : cmp j j = .eq := Std.ReflCmp.compare_self
        rw [hself] at h
        exact absurd h (by decide)
      simp only [find?, if_neg hne]
      by_cases hj : j = k
      · rw [if_pos hj, if_neg (fun hk => hne (hj.trans hk.symm)), if_pos hj]
      · rw [if_neg hj, if_neg hj, ih hp.2]

/-- Sorted lists with the same entries are equal. -/
theorem Sorted.ext [Std.TransCmp cmp] {l r : List (κ × ν)} (hl : Sorted cmp l)
    (hr : Sorted cmp r) (h : ∀ p, p ∈ l ↔ p ∈ r) : l = r := by
  have hne : ∀ p q : κ × ν, cmp p.1 q.1 = .lt → p ≠ q := by
    intro p q hpq hq
    have hself : cmp p.1 p.1 = .eq := Std.ReflCmp.compare_self
    rw [← hq, hself] at hpq
    exact absurd hpq (by decide)
  have hp : l.Perm r := (List.perm_ext_iff_of_nodup (hl.imp (hne _ _)) (hr.imp (hne _ _))).mpr h
  refine hp.eq_of_pairwise ?_ hl hr
  intro p q _ _ hpq hqp
  have hgt : cmp p.1 q.1 = .gt := Std.OrientedCmp.gt_iff_lt.mpr hqp
  rw [hgt] at hpq
  exact absurd hpq (by decide)

end ProbLoop.Assoc
