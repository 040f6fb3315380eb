import SparsePoly.Binary64.TotalOrder
import SparsePoly.Term

/-!
# Terms as they are stored

A coefficient is stored as a word of 64 bits.  A number has one word, but NaN has many, which differ
in sign and payload.  Arithmetic and comparisons do not tell those apart; the total order of words
does, and it is by that order that the operands of a product are put in order.

Which word stands for a NaN depends on the operations that it comes from, and on the machine.  So it
is left open here: a product is formed for given words of its operands (`Patterns`), and what is
proved of products holds for all of them.

## Main definitions

* `StoredTerm` - an exponent, and the word of a coefficient
* `Terms.operandOrder` - the order of operands: by length, then lexicographically by terms
* `Patterns` - the words of operands

## Main statements

* `Patterns.stored_eq_of_ne_nan` - only the words of NaNs are left open
-/

namespace SparsePoly

/-- A term with the word of its coefficient. -/
structure StoredTerm where
  /-- The power of the variable. -/
  exponent : UInt32
  /-- The word of the coefficient. -/
  bits : UInt64
  deriving DecidableEq

namespace StoredTerm

/-- The term that is stored. -/
def term (t : StoredTerm) : Term := ⟨t.exponent, .ofBits t.bits⟩

/-- Stores a term, a NaN without sign and payload. -/
def ofTerm (t : Term) : StoredTerm := ⟨t.exponent, t.coeff.toBits⟩

theorem term_ofTerm (t : Term) : (ofTerm t).term = t := by
  rw [term, ofTerm, Binary64.ofBits_toBits]

/-- **Only a NaN is stored in several ways.** -/
theorem eq_of_term_eq {t u : StoredTerm} (eq : t.term = u.term) (number : t.term.coeff ≠ .nan) :
    t = u := by
  have exponent : t.exponent = u.exponent := congrArg Term.exponent eq
  have bits : t.bits = u.bits := Binary64.eq_of_ofBits_eq (congrArg Term.coeff eq) number
  cases t
  cases u
  cases exponent
  cases bits
  rfl

/-- Lists without NaN are stored in one way. -/
theorem eq_of_map_term_eq {ts us : List StoredTerm} (eq : ts.map term = us.map term)
    (numbers : ∀ t ∈ ts, t.term.coeff ≠ .nan) : ts = us := by
  induction ts generalizing us with
  | nil => exact (List.map_eq_nil_iff.mp eq.symm).symm
  | cons t ts ih =>
    obtain ⟨u, us, rfl, t_eq, ts_eq⟩ := List.map_eq_cons_iff.mp eq.symm
    obtain ⟨number, numbers⟩ := List.forall_mem_cons.mp numbers
    rw [eq_of_term_eq t_eq.symm number, ih ts_eq.symm numbers]

/-- First by exponent, then by the total order of the coefficients. -/
def order (t u : StoredTerm) : Ordering :=
  (compare t.exponent u.exponent).then (Binary64.totalOrder t.bits u.bits)

end StoredTerm

/-! ### The order of operands -/

namespace Terms

/-- The first difference in a comparison term by term; equal if one list runs out. -/
def lexOrder : List StoredTerm → List StoredTerm → Ordering
  | t :: ts, u :: us => (t.order u).then (lexOrder ts us)
  | _, _ => .eq

/-- **The order of operands**: the shorter one first, then by the first different terms. -/
def operandOrder (ts us : List StoredTerm) : Ordering :=
  (compare ts.length us.length).then (lexOrder ts us)

end Terms

/-! ### The words of operands -/

/-- **The words of the operands of a product.**  Each list of terms is stored in words that read as
its coefficients.  That determines the words of numbers, and leaves those of NaNs open, which may
differ from list to list and from place to place.  Equal lists are stored alike, which is no loss:
their product is the same with either of them as the outer one. -/
class Patterns where
  /-- The terms as they are stored. -/
  stored : List Term → List StoredTerm
  /-- They are stored so that they are read back. -/
  map_term_stored : ∀ ts, (stored ts).map StoredTerm.term = ts

namespace Patterns

/-- All NaNs without sign and payload. -/
@[reducible] def standard : Patterns where
  stored := List.map StoredTerm.ofTerm
  map_term_stored := by
    intro ts
    have back : StoredTerm.term ∘ StoredTerm.ofTerm = id := funext StoredTerm.term_ofTerm
    rw [List.map_map, back, List.map_id]

/-- A list is not stored as another one is. -/
theorem stored_injective [Patterns] {ts us : List Term} (eq : stored ts = stored us) : ts = us := by
  rw [← map_term_stored ts, eq, map_term_stored]

/-- **Without NaN nothing is left open.** -/
theorem stored_eq_of_ne_nan (P Q : Patterns) {ts : List Term}
    (numbers : ∀ t ∈ ts, t.coeff ≠ .nan) : P.stored ts = Q.stored ts := by
  have same : (P.stored ts).map StoredTerm.term = (Q.stored ts).map StoredTerm.term := by
    rw [P.map_term_stored, Q.map_term_stored]
  refine StoredTerm.eq_of_map_term_eq same fun t mem => numbers t.term ?_
  rw [← P.map_term_stored ts]
  exact List.mem_map_of_mem mem

end Patterns

end SparsePoly
