import Mathlib.Data.List.Basic
import Mathlib.Data.List.Count
import Mathlib.Data.List.Infix

/-!
# Escrow

Payments for what is owed at once, or owed if a transaction commits. The books are right if
everything that is due has been paid once, and nothing before it was due.
-/

open List

namespace HardenedMinix.Lib

variable {X : Type}

/-- A booking: something is owed, at once (`none`) or if a transaction commits;
something is paid; a transaction ends. -/
inductive Booking (X : Type) where
  | owed (x : X) (tx : Option Nat)
  | paid (x : X)
  | committed (tx : Nat)
  | aborted (tx : Nat)
  deriving DecidableEq

variable [DecidableEq X]

/-- The entry makes `x` due, given all entries. -/
def Booking.MakesDue (es : List (Booking X)) (x : X) : Booking X → Bool
  | .owed y none => decide (y = x)
  | .owed y (some n) => decide (y = x) && decide (.committed n ∈ es)
  | _ => false

def due (es : List (Booking X)) (x : X) : Nat :=
  es.countP (Booking.MakesDue es x)

def paid (es : List (Booking X)) (x : X) : Nat :=
  es.count (.paid x)

/-- How often `x` is owed in the transaction `n`. -/
def held (es : List (Booking X)) (n : Nat) (x : X) : Nat :=
  es.count (.owed x (some n))

/-- Everything due has been paid once, and nothing was paid before it was due. -/
structure Settled (es : List (Booking X)) (x : X) : Prop where
  timely : ∀ pre, pre <+: es → paid pre x ≤ due pre x
  exact : paid es x = due es x

/-! ## One more entry -/

variable {es : List (Booking X)} {x y : X} {n k c : Nat}

theorem due_snoc {e : Booking X} (he : ∀ n, e ≠ .committed n) :
    due (es ++ [e]) x = due es x + if Booking.MakesDue es x e then 1 else 0 := by
  have hsame : Booking.MakesDue (es ++ [e]) x = Booking.MakesDue es x := by
    funext e'
    cases e' with
    | owed y tx =>
      cases tx with
      | none => rfl
      | some n => simp [Booking.MakesDue, (he n).symm]
    | paid y => rfl
    | committed n => rfl
    | aborted n => rfl
  rw [due, hsame, countP_append, countP_singleton, due]

theorem due_commit (hn : .committed n ∉ es) :
    due (es ++ [.committed n]) x = due es x + held es n x := by
  have hsplit : ∀ l : List (Booking X), l.countP (Booking.MakesDue (es ++ [.committed n]) x) =
        l.countP (Booking.MakesDue es x) + l.count (.owed x (some n)) := by
    intro l
    induction l with
    | nil => rfl
    | cons e l ih =>
      rw [countP_cons, countP_cons, count_cons, ih]
      have hone : (if Booking.MakesDue (es ++ [.committed n]) x e then 1 else 0) =
          (if Booking.MakesDue es x e then 1 else 0) +
            if e == Booking.owed x (some n) then 1 else 0 := by
        cases e with
        | owed y tx =>
          cases tx with
          | none => simp [Booking.MakesDue]
          | some k =>
            -- the entry counts if its transaction is the one that ends now
            by_cases hk : k = n
            · subst hk
              simp [Booking.MakesDue, hn]
            · simp [Booking.MakesDue, hk]
        | paid y => rfl
        | committed k => rfl
        | aborted k => rfl
      omega
  have hlast : Booking.MakesDue (es ++ [.committed n]) x (.committed n) = false := rfl
  rw [due, countP_append, hsplit, countP_singleton, hlast]
  rfl

@[simp] theorem paid_snoc (e : Booking X) :
    paid (es ++ [e]) x = paid es x + if e = .paid x then 1 else 0 := by
  simp [paid, count_append, count_singleton]

@[simp] theorem held_snoc (e : Booking X) :
    held (es ++ [e]) n x = held es n x + if e = .owed x (some n) then 1 else 0 := by
  simp [held, count_append, count_singleton]

/-! ## Books -/

/-- The books while transaction `n` is open or about to begin, with `x` owed `c` times
in it. -/
structure Books (es : List (Booking X)) (n c : Nat) (x : X) : Prop where
  settled : Settled es x
  held : held es n x = c
  /-- transactions still to come -/
  fresh : ∀ k, n ≤ k → .committed k ∉ es
  later : ∀ k, n < k → Lib.held es k x = 0

theorem Books.nil (n : Nat) (x : X) : Books [] n 0 x := by
  apply Books.mk
  · constructor
    · intro pre hpre
      rw [prefix_nil.mp hpre]
      rfl
    · rfl
  · rfl
  · intro k _ hmem
    exact not_mem_nil hmem
  · intro k _
    rfl

theorem Settled.snoc {e : Booking X} (h : Settled es x)
    (he : paid (es ++ [e]) x = due (es ++ [e]) x) : Settled (es ++ [e]) x := by
  constructor
  · intro pre hpre
    rcases prefix_concat_iff.mp hpre with rfl | hpre
    · exact he.le
    · exact h.timely pre hpre
  · exact he

theorem Settled.pay {e : Booking X} (h : Settled es x) (he : paid (es ++ [e]) x ≤ due (es ++ [e]) x)
    (hpay : paid (es ++ [e]) x + 1 = due (es ++ [e]) x) : Settled (es ++ [e, .paid x]) x := by
  have hlist : es ++ [e, .paid x] = (es ++ [e]) ++ [.paid x] := by simp
  have hlast : paid ((es ++ [e]) ++ [.paid x]) x = due ((es ++ [e]) ++ [.paid x]) x := by
    rw [paid_snoc, due_snoc (by simp), if_pos rfl]
    simpa [Booking.MakesDue] using hpay
  rw [hlist]
  constructor
  · intro pre hpre
    rcases prefix_concat_iff.mp hpre with rfl | hpre
    · exact hlast.le
    · rcases prefix_concat_iff.mp hpre with rfl | hpre
      · exact he
      · exact h.timely pre hpre
  · exact hlast

namespace Books

theorem snoc_ne {e : Booking X} (h : Books es n c x) (he : ∀ k, e ≠ .committed k)
    (howed : ∀ tx, e ≠ .owed x tx) (hpaid : e ≠ .paid x) : Books (es ++ [e]) n c x := by
  have hdue : Booking.MakesDue es x e = false := by
    cases e with
    | owed y tx =>
      have hy : y ≠ x := fun hxy => howed tx (by rw [hxy])
      cases tx with
      | none => simpa [Booking.MakesDue] using hy
      | some k => simp [Booking.MakesDue, hy]
    | paid y => rfl
    | committed k => rfl
    | aborted k => rfl
  apply Books.mk
  · apply h.settled.snoc
    rw [paid_snoc, due_snoc he, hdue, if_neg hpaid, h.settled.exact]
    simp
  · rw [held_snoc, if_neg (howed _), h.held, Nat.add_zero]
  · intro k hk hmem
    rcases mem_append.mp hmem with hmem | hmem
    · exact h.fresh k hk hmem
    · exact he k (mem_singleton.mp hmem).symm
  · intro k hk
    rw [held_snoc, if_neg (howed _), h.later k hk]

theorem snoc_aborted (h : Books es n c x) (k : Nat) : Books (es ++ [.aborted k]) n c x :=
  h.snoc_ne (fun k => by simp) (fun tx => by simp) (by simp)

theorem snoc_paid_ne (h : Books es n c x) (hy : y ≠ x) : Books (es ++ [.paid y]) n c x :=
  h.snoc_ne (fun k => by simp) (fun tx => by simp) (by simpa using hy)

theorem snoc_owed_ne (h : Books es n c x) (hy : y ≠ x) (tx : Option Nat) :
    Books (es ++ [.owed y tx]) n c x :=
  h.snoc_ne (fun k => by simp) (fun tx => by simp [hy]) (by simp)

theorem now (h : Books es n c x) : Books (es ++ [.owed x none, .paid x]) n c x := by
  have hdue : due (es ++ [.owed x none]) x = due es x + 1 := by
    rw [due_snoc (by simp)]
    simp [Booking.MakesDue]
  have hpaid : paid (es ++ [.owed x none]) x = paid es x := by
    rw [paid_snoc]
    simp
  have hexact := h.settled.exact
  apply Books.mk
  · apply h.settled.pay
    · omega
    · omega
  · simp [Lib.held, count_append, ← h.held]
  · intro k hk hmem
    simp only [mem_append, mem_cons, reduceCtorEq, not_mem_nil, or_self, or_false] at hmem
    exact h.fresh k hk hmem
  · intro k hk
    simpa [Lib.held, count_append, count_cons] using h.later k hk

theorem hold (h : Books es n c x) : Books (es ++ [.owed x (some n)]) n (c + 1) x := by
  apply Books.mk
  · apply h.settled.snoc
    have hfresh := h.fresh n le_rfl
    rw [paid_snoc, due_snoc (by simp), h.settled.exact]
    simp [Booking.MakesDue, hfresh]
  · rw [held_snoc, if_pos rfl, h.held]
  · intro k hk hmem
    rcases mem_append.mp hmem with hmem | hmem
    · exact h.fresh k hk hmem
    · simp at hmem
  · intro k hk
    have hne : Booking.owed x (some n) ≠ .owed x (some k) := by
      simp [hk.ne]
    rw [held_snoc, if_neg hne, h.later k hk]

theorem commit (h : Books es n 0 x) : Books (es ++ [.committed n]) (n + 1) 0 x := by
  apply Books.mk
  · apply h.settled.snoc
    rw [paid_snoc, due_commit (h.fresh n le_rfl), h.held, h.settled.exact]
    simp
  · rw [held_snoc, h.later (n + 1) (Nat.lt_succ_self n)]
    simp
  · intro k hk hmem
    rcases mem_append.mp hmem with hmem | hmem
    · exact h.fresh k (Nat.le_of_succ_le hk) hmem
    · simp only [mem_singleton, Booking.committed.injEq] at hmem
      omega
  · intro k hk
    rw [held_snoc, h.later k (by omega)]
    simp

theorem commit_pay (h : Books es n 1 x) : Books (es ++ [.committed n, .paid x]) (n + 1) 0 x := by
  have hdue : due (es ++ [.committed n]) x = due es x + 1 := by
    rw [due_commit (h.fresh n le_rfl), h.held]
  have hpaid : paid (es ++ [.committed n]) x = paid es x := by
    rw [paid_snoc]
    simp
  have hexact := h.settled.exact
  apply Books.mk
  · apply h.settled.pay
    · omega
    · omega
  · simpa [Lib.held, count_append, count_cons] using
      h.later (n + 1) (Nat.lt_succ_self n)
  · intro k hk hmem
    simp only [mem_append, mem_cons, reduceCtorEq, Booking.committed.injEq,
      not_mem_nil, or_false] at hmem
    rcases hmem with hmem | hmem
    · exact h.fresh k (Nat.le_of_succ_le hk) hmem
    · omega
  · intro k hk
    simpa [Lib.held, count_append, count_cons] using h.later k (by omega)

theorem abort (h : Books es n c x) : Books (es ++ [.aborted n]) (n + 1) 0 x := by
  have hn := h.snoc_aborted n
  exact ⟨hn.settled, hn.later (n + 1) (Nat.lt_succ_self n),
    fun k hk => hn.fresh k (Nat.le_of_succ_le hk), fun k hk => hn.later k (by omega)⟩

end Books

end HardenedMinix.Lib
