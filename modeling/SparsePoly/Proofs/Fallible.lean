/-!
# Computations that may fail

One computation after another, and one computation for each entry of a list.  Both fail with the
first error and give nothing then; what comes behind the failure is not looked at.

## Main statements

* `bind_eq_ok_iff`, `bind_eq_error_iff` - one computation after another
* `exists_mapM_eq_ok_iff`, `mapM_eq_error_iff` - a computation for each entry of a list
* `mapM_bind_eq_ok_iff` - entries that may themselves be errors
-/

namespace SparsePoly

variable {ε α β : Type}

section Bind

variable {x : Except ε α} {f : α → Except ε β}

theorem bind_eq_ok_iff {r : β} : x >>= f = .ok r ↔ ∃ a, x = .ok a ∧ f a = .ok r := by
  cases x with
  | error e => exact ⟨nofun, fun ⟨_, eq, _⟩ => nomatch eq⟩
  | ok a => exact ⟨fun eq => ⟨a, rfl, eq⟩, fun ⟨_, eq, rest⟩ => by cases eq; exact rest⟩

theorem bind_eq_error_iff {e : ε} :
    x >>= f = .error e ↔ x = .error e ∨ ∃ a, x = .ok a ∧ f a = .error e := by
  cases x with
  | error d =>
    refine ⟨fun eq => ?_, fun eq => ?_⟩
    · cases eq
      exact Or.inl rfl
    · cases eq.resolve_right nofun
      rfl
  | ok a =>
    refine ⟨fun eq => Or.inr ⟨a, rfl, eq⟩, fun eq => ?_⟩
    obtain ⟨_, found, rest⟩ := eq.resolve_left nofun
    cases found
    exact rest

end Bind

section Rows

variable {f : α → Except ε β} {x : α} {xs : List α}

theorem mapM_cons_eq_ok_iff {ys : List β} :
    (x :: xs).mapM f = .ok ys ↔ ∃ y zs, f x = .ok y ∧ xs.mapM f = .ok zs ∧ y :: zs = ys := by
  rw [List.mapM_cons, bind_eq_ok_iff]
  refine exists_congr fun y => ?_
  rw [bind_eq_ok_iff]
  constructor
  · rintro ⟨first, zs, others, whole⟩
    exact ⟨zs, first, others, Except.ok.inj whole⟩
  · rintro ⟨zs, first, others, rfl⟩
    exact ⟨first, zs, others, rfl⟩

theorem mapM_cons_eq_error_iff {e : ε} :
    (x :: xs).mapM f = .error e ↔ f x = .error e ∨ (∃ y, f x = .ok y) ∧ xs.mapM f = .error e := by
  rw [List.mapM_cons, bind_eq_error_iff]
  refine or_congr_right ?_
  constructor
  · rintro ⟨y, first, failed⟩
    rcases bind_eq_error_iff.mp failed with others | ⟨_, _, whole⟩
    · exact ⟨⟨y, first⟩, others⟩
    · cases whole
  · rintro ⟨⟨y, first⟩, others⟩
    exact ⟨y, first, bind_eq_error_iff.mpr (Or.inl others)⟩

/-- **A row succeeds** if each of its entries does. -/
theorem exists_mapM_eq_ok_iff :
    (∃ ys, xs.mapM f = .ok ys) ↔ ∀ x ∈ xs, ∃ y, f x = .ok y := by
  induction xs with
  | nil => exact iff_of_true ⟨[], rfl⟩ nofun
  | cons x xs ih =>
    rw [List.forall_mem_cons, ← ih]
    constructor
    · rintro ⟨ys, made⟩
      obtain ⟨y, zs, first, others, _⟩ := mapM_cons_eq_ok_iff.mp made
      exact ⟨⟨y, first⟩, zs, others⟩
    · rintro ⟨⟨y, first⟩, zs, others⟩
      exact ⟨y :: zs, mapM_cons_eq_ok_iff.mpr ⟨y, zs, first, others, rfl⟩⟩

/-- **A row fails** with the first entry that does, whatever comes behind it. -/
theorem mapM_eq_error_iff {e : ε} :
    xs.mapM f = .error e ↔ ∃ front x back, xs = front ++ x :: back ∧
      (∀ w ∈ front, ∃ y, f w = .ok y) ∧ f x = .error e := by
  induction xs with
  | nil =>
    refine iff_of_false nofun ?_
    rintro ⟨front, x, back, split, _⟩
    exact List.append_ne_nil_of_right_ne_nil front (List.cons_ne_nil x back) split.symm
  | cons x xs ih =>
    rw [mapM_cons_eq_error_iff, ih]
    constructor
    · rintro (failed | ⟨first, front, w, back, rfl, before, failed⟩)
      · exact ⟨[], x, xs, rfl, nofun, failed⟩
      · exact ⟨x :: front, w, back, rfl, List.forall_mem_cons.mpr ⟨first, before⟩, failed⟩
    · rintro ⟨front, w, back, split, before, failed⟩
      rcases List.cons_eq_append_iff.mp split with ⟨rfl, here⟩ | ⟨rest, rfl, later⟩
      · cases here
        exact Or.inl failed
      · obtain ⟨first, before⟩ := List.forall_mem_cons.mp before
        exact Or.inr ⟨first, rest, w, back, later, before, failed⟩

/-- A row of entries that may be errors succeeds only if none is one. -/
theorem mapM_bind_eq_ok_iff {items : List (Except ε α)} {ys : List β} :
    items.mapM (fun item => item.bind f) = .ok ys ↔
      ∃ xs : List α, items = xs.map .ok ∧ xs.mapM f = .ok ys := by
  induction items generalizing ys with
  | nil =>
    constructor
    · exact fun made => ⟨[], rfl, made⟩
    · rintro ⟨xs, none_there, made⟩
      rwa [List.map_eq_nil_iff.mp none_there.symm] at made
  | cons item items ih =>
    rw [mapM_cons_eq_ok_iff]
    constructor
    · rintro ⟨y, zs, first, others, rfl⟩
      obtain ⟨x, rfl, made⟩ := bind_eq_ok_iff.mp first
      obtain ⟨xs, rfl, rest⟩ := ih.mp others
      exact ⟨x :: xs, rfl, mapM_cons_eq_ok_iff.mpr ⟨y, zs, made, rest, rfl⟩⟩
    · rintro ⟨xs, split, made⟩
      obtain ⟨x, xs, rfl, rfl, rfl⟩ := List.map_eq_cons_iff.mp split.symm
      obtain ⟨y, zs, first, others, whole⟩ := mapM_cons_eq_ok_iff.mp made
      exact ⟨y, zs, first, ih.mpr ⟨xs, rfl, others⟩, whole⟩

end Rows

end SparsePoly
