import Mathlib.Algebra.Group.Basic
import Mathlib.Order.Basic

/-!
# Computations that only append

A computation with exceptions over a state in a monoid is appending if it does not read the state
and multiplies it, on the right, by what it adds; this includes what it adds before it raises. The
rules here follow the constructors of such computations. A size of states that is additive grows
with each of them.
-/

namespace AppendOnly

variable {M ε α β τ : Type}

def exec (x : ExceptT ε (StateM M) α) (s : M) : Except ε α × M := StateT.run (ExceptT.run x) s

@[simp] theorem exec_pure (a : α) (s : M) :
    exec (pure a : ExceptT ε (StateM M) α) s = (.ok a, s) := rfl

/-- The result of a computation without a state. -/
def raiseError (r : Except ε α) : ExceptT ε (StateM M) α := ExceptT.mk (pure r)

@[simp] theorem exec_raiseError (r : Except ε α) (s : M) :
    exec (raiseError r : ExceptT ε (StateM M) α) s = (r, s) := rfl

theorem exec_bind (x : ExceptT ε (StateM M) α) (f : α → ExceptT ε (StateM M) β) (s : M) :
    exec (x >>= f) s =
      match exec x s with
      | (.ok a, s') => exec (f a) s'
      | (.error e, s') => (.error e, s') := by
  have hrun : exec (x >>= f) s = StateT.run (ExceptT.bindCont f (exec x s).1) (exec x s).2 := rfl
  rw [hrun]
  rcases exec x s with ⟨_ | _, s'⟩ <;> rfl

variable [Monoid M]

def added (x : ExceptT ε (StateM M) α) : M := (exec x 1).2

def Appending (x : ExceptT ε (StateM M) α) : Prop :=
  ∀ s, exec x s = ((exec x 1).1, s * added x)

def append (d : M) : ExceptT ε (StateM M) Unit := modify (· * d)

@[simp] theorem exec_append (d s : M) :
    exec (append d : ExceptT ε (StateM M) Unit) s = (.ok (), s * d) := rfl

@[simp] theorem added_append (d : M) :
    added (append d : ExceptT ε (StateM M) Unit) = d := one_mul d

theorem Appending.pure (a : α) : Appending (pure a : ExceptT ε (StateM M) α) := by
  intro s
  simp [added]

theorem Appending.raiseError (r : Except ε α) :
    Appending (raiseError r : ExceptT ε (StateM M) α) := by
  intro s
  simp [added]

theorem Appending.append (d : M) : Appending (append d : ExceptT ε (StateM M) Unit) := by
  intro s
  simp [added]

/-- What a sequence adds is what its first part adds, and then what its second part adds. -/
theorem added_bind_ok {x : ExceptT ε (StateM M) α} {f : α → ExceptT ε (StateM M) β} {a : α}
    (hf : Appending (f a)) (hx : (exec x 1).1 = .ok a) :
    added (x >>= f) = added x * added (f a) := by
  rcases hexec : exec x 1 with ⟨r, d⟩
  rw [hexec] at hx
  cases hx
  rw [added, exec_bind, added, hexec]
  exact congrArg Prod.snd (hf d)

theorem Appending.bind {x : ExceptT ε (StateM M) α} {f : α → ExceptT ε (StateM M) β}
    (hx : Appending x) (hf : ∀ a, Appending (f a)) : Appending (x >>= f) := by
  intro s
  rw [added, exec_bind, exec_bind, hx s, added]
  rcases exec x 1 with ⟨e | a, d⟩
  · rfl
  · change exec (f a) (s * d) = ((exec (f a) d).1, s * (exec (f a) d).2)
    rw [hf a (s * d), hf a d, mul_assoc]

theorem Appending.forM {f : τ → ExceptT ε (StateM M) PUnit} (hf : ∀ t, Appending (f t)) :
    ∀ ts : List τ, Appending (ts.forM f)
  | [] => Appending.pure _
  | t :: ts => (hf t).bind fun _ => Appending.forM hf ts

section size

variable (size : M → ℕ) (hsize : ∀ a b, size (a * b) = size a + size b)
include hsize

theorem size_added_le_bind {x : ExceptT ε (StateM M) α} {f : α → ExceptT ε (StateM M) β}
    (hf : ∀ a, Appending (f a)) : size (added x) ≤ size (added (x >>= f)) := by
  cases hx : (exec x 1).1 with
  | ok a =>
    rw [added_bind_ok (hf a) hx, hsize]
    exact Nat.le_add_right _ _
  | error e =>
    refine Nat.le_of_eq (congrArg size ?_)
    rcases hexec : exec x 1 with ⟨r, d⟩
    rw [hexec] at hx
    cases hx
    rw [added, added, exec_bind, hexec]

/-- If each element adds something, then so does a list that is not empty. -/
theorem size_added_forM_pos {f : τ → ExceptT ε (StateM M) PUnit} (hf : ∀ t, Appending (f t))
    (hpos : ∀ t, 0 < size (added (f t))) {ts : List τ} (hts : ts ≠ []) :
    0 < size (added (ts.forM f)) := by
  obtain ⟨t, rest, rfl⟩ := List.exists_cons_of_ne_nil hts
  exact Nat.lt_of_lt_of_le (hpos t)
    (size_added_le_bind size hsize fun _ => Appending.forM hf rest)

theorem size_pow (a : M) (n : ℕ) : size (a ^ n) = n * size a := by
  induction n with
  | zero =>
    have hone := hsize 1 1
    rw [mul_one] at hone
    rw [pow_zero, Nat.zero_mul]
    omega
  | succ n ih => rw [pow_succ, hsize, ih, Nat.succ_mul]

end size

/-- Rounds that multiply by one element or leave the state. -/
theorem foldl_mul_pow (p : τ → Bool) (d : M) (ts : List τ) (s : M) :
    ts.foldl (fun s t => if p t then s * d else s) s = s * d ^ ts.countP p := by
  induction ts generalizing s with
  | nil => simp
  | cons t ts ih =>
    rw [List.foldl_cons, ih]
    cases hp : p t with
    | true => rw [if_pos rfl, List.countP_cons_of_pos hp, pow_succ', mul_assoc]
    | false => rw [if_neg Bool.false_ne_true, List.countP_cons_of_neg (by simp [hp])]

end AppendOnly
