import Libcrypto.Bytes

/-!
# Buffers, accesses and traces

The C routines work on buffers through pointers.  A buffer is a `Region`, one
for each array or allocation the routines of `rsa_oaep.c` touch, and a pointer
is a region with a signed offset, so that `db + emlen - flen - mdlen` is
`db.add (emlen - flen - mdlen)` whatever the sign of the offset.

Memory is total: every byte of every region has a value, and a write anywhere
succeeds.  What an access outside a buffer would do in C is not modelled as a
trap; instead every read and write is recorded in a trace, and staying within a
buffer is a statement about the trace.  The memory algebra is the usual one:
a read after a write of the same range sees what was written
(`read_write_same`), a read of a disjoint range sees the old contents
(`read_write_disjoint`), and a read splits at any point (`read_add`).
-/

namespace Libcrypto

/-- The buffers of `rsa_oaep.c`: the caller's `to`, `from` and `param`, the
encoder's heap `dbmask` and stack `seedmask`, the decoder's heap `db` and stack
`seed` and `phash`, and the stack `md` of `PKCS1_MGF1`. -/
inductive Region
  | toBuf | fromBuf | paramBuf
  | dbmask | seedmask
  | db | seed | phash
  | md
  deriving DecidableEq, Repr

structure Ptr where
  region : Region
  off : Int
  deriving DecidableEq, Repr

namespace Ptr

/-- Pointer arithmetic `p + k`. -/
def add (p : Ptr) (k : Int) : Ptr := ⟨p.region, p.off + k⟩

@[simp] theorem add_region (p : Ptr) (k : Int) : (p.add k).region = p.region := rfl

@[simp] theorem add_off (p : Ptr) (k : Int) : (p.add k).off = p.off + k := rfl

@[simp] theorem add_zero (p : Ptr) : p.add 0 = p := by simp [add]

theorem add_add (p : Ptr) (a b : Int) : (p.add a).add b = p.add (a + b) := by
  simp [add, Int.add_assoc]

@[simp] theorem mk_add (r : Region) (o k : Int) : (⟨r, o⟩ : Ptr).add k = ⟨r, o + k⟩ := rfl

end Ptr

/-- The contents of every region. -/
def Mem := Region → Int → UInt8

namespace Mem

/-- Store one byte. -/
def set (m : Mem) (p : Ptr) (v : UInt8) : Mem :=
  fun r j => if r = p.region ∧ j = p.off then v else m r j

/-- The `n` bytes at `p`. -/
def read (m : Mem) (p : Ptr) : Nat → List UInt8
  | 0 => []
  | n + 1 => m p.region p.off :: m.read (p.add 1) n

/-- Store a byte string at `p`, one byte after the other. -/
def write (m : Mem) (p : Ptr) : List UInt8 → Mem
  | [] => m
  | b :: bs => (m.set p b).write (p.add 1) bs

@[simp] theorem read_zero (m : Mem) (p : Ptr) : m.read p 0 = [] := rfl

theorem read_succ (m : Mem) (p : Ptr) (n : Nat) :
    m.read p (n + 1) = m p.region p.off :: m.read (p.add 1) n := rfl

@[simp] theorem length_read (m : Mem) (p : Ptr) (n : Nat) : (m.read p n).length = n := by
  induction n generalizing p with
  | zero => rfl
  | succ n ih => simp [read_succ, ih]

@[simp] theorem write_nil (m : Mem) (p : Ptr) : m.write p [] = m := rfl

theorem write_cons (m : Mem) (p : Ptr) (b : UInt8) (bs : List UInt8) :
    m.write p (b :: bs) = (m.set p b).write (p.add 1) bs := rfl

theorem write_apply_outside {m : Mem} {p : Ptr} {bs : List UInt8} {r : Region} {j : Int}
    (h : r ≠ p.region ∨ j < p.off ∨ p.off + bs.length ≤ j) : m.write p bs r j = m r j := by
  induction bs generalizing m p with
  | nil => rfl
  | cons b bs ih =>
    simp only [List.length_cons, Nat.cast_add, Nat.cast_one] at h
    have hj : ¬(r = p.region ∧ j = p.off) := by
      rintro ⟨hr, rfl⟩
      rcases h with h | h | h
      · exact h hr
      · omega
      · omega
    have h' : r ≠ (p.add 1).region ∨ j < (p.add 1).off ∨ (p.add 1).off + bs.length ≤ j := by
      rcases h with h | h | h
      · exact .inl h
      · exact .inr (.inl (by simp; omega))
      · exact .inr (.inr (by simp; omega))
    rw [write_cons, ih h', set, if_neg hj]

theorem write_apply_of_ne {m : Mem} {p : Ptr} {bs : List UInt8} {r : Region} {j : Int}
    (h : r ≠ p.region) : m.write p bs r j = m r j := write_apply_outside (.inl h)

@[simp] theorem read_write_same (m : Mem) (p : Ptr) (bs : List UInt8) :
    (m.write p bs).read p bs.length = bs := by
  induction bs generalizing m p with
  | nil => rfl
  | cons b bs ih =>
    rw [List.length_cons, read_succ, write_cons, ih,
      write_apply_outside (by simp only [Ptr.add_region, Ptr.add_off]; omega)]
    simp [set]

theorem read_write_disjoint {m : Mem} {p q : Ptr} {bs : List UInt8} {n : Nat}
    (h : q.region ≠ p.region ∨ q.off + n ≤ p.off ∨ p.off + bs.length ≤ q.off) :
    (m.write p bs).read q n = m.read q n := by
  induction n generalizing q with
  | zero => rfl
  | succ n ih =>
    push_cast at h
    have h0 : q.region ≠ p.region ∨ q.off < p.off ∨ p.off + bs.length ≤ q.off := by
      rcases h with h | h | h
      · exact .inl h
      · exact .inr (.inl (by omega))
      · exact .inr (.inr h)
    have h1 : (q.add 1).region ≠ p.region ∨ (q.add 1).off + n ≤ p.off ∨
        p.off + bs.length ≤ (q.add 1).off := by
      rcases h with h | h | h
      · exact .inl h
      · exact .inr (.inl (by simp; omega))
      · exact .inr (.inr (by simp; omega))
    rw [read_succ, read_succ, write_apply_outside h0, ih h1]

/-! The three cases of a read after a write, each with a side condition that
`omega` or `simp` discharges once the pointers are literal. -/

theorem read_write_le {m : Mem} {p q : Ptr} {bs : List UInt8} {n : Nat}
    (h : q.off + n ≤ p.off) : (m.write p bs).read q n = m.read q n :=
  read_write_disjoint (.inr (.inl h))

theorem read_write_ge {m : Mem} {p q : Ptr} {bs : List UInt8} {n : Nat}
    (h : p.off + bs.length ≤ q.off) : (m.write p bs).read q n = m.read q n :=
  read_write_disjoint (.inr (.inr h))

theorem read_write_ne {m : Mem} {p q : Ptr} {bs : List UInt8} {n : Nat}
    (h : q.region ≠ p.region) : (m.write p bs).read q n = m.read q n :=
  read_write_disjoint (.inl h)

theorem read_write_mk_ne {m : Mem} {r r' : Region} {o o' : Int} {bs : List UInt8} {n : Nat}
    (h : r' ≠ r) : (m.write ⟨r, o⟩ bs).read ⟨r', o'⟩ n = m.read ⟨r', o'⟩ n :=
  read_write_ne h

theorem read_write_eq {m : Mem} {p q : Ptr} {bs : List UInt8} {n : Nat}
    (hr : q.region = p.region) (ho : q.off = p.off) (h : bs.length = n) :
    (m.write p bs).read q n = bs := by
  obtain ⟨r, o⟩ := q
  obtain ⟨r', o'⟩ := p
  simp only at hr ho
  subst hr ho h
  exact read_write_same m _ bs

theorem read_add (m : Mem) (p : Ptr) (a b : Nat) :
    m.read p (a + b) = m.read p a ++ m.read (p.add a) b := by
  induction a generalizing p with
  | zero => simp
  | succ a ih =>
    rw [Nat.add_right_comm, read_succ, read_succ, ih, Ptr.add_add, List.cons_append]
    push_cast
    rw [Int.add_comm 1]

theorem read_append_eq {m : Mem} {p : Ptr} {a b : Nat} {l l' : List UInt8}
    (h : m.read p a = l) (h' : m.read (p.add a) b = l') : m.read p (a + b) = l ++ l' := by
  rw [read_add, h, h']

theorem read_append_inj {m : Mem} {p : Ptr} {a b : Nat} {l l' : List UInt8}
    (h : m.read p (a + b) = l ++ l') (hl : l.length = a) :
    m.read p a = l ∧ m.read (p.add a) b = l' := by
  rw [read_add] at h
  exact List.append_inj h (by simp [hl])

theorem read_drop {m : Mem} {p : Ptr} {a b : Nat} {l : List UInt8}
    (h : m.read p (a + b) = l) : m.read (p.add a) b = l.drop a := by
  rw [← h, read_add, List.drop_left' (length_read _ _ _)]

theorem read_take {m : Mem} {p : Ptr} {a b : Nat} {l : List UInt8}
    (h : m.read p (a + b) = l) : m.read p a = l.take a := by
  rw [← h, read_add, List.take_left' (length_read _ _ _)]

theorem take_read (m : Mem) (p : Ptr) {a b : Nat} (h : a ≤ b) : (m.read p b).take a = m.read p a :=
  (read_take (b := b - a) (by rw [Nat.add_sub_cancel' h])).symm

theorem drop_read (m : Mem) (p : Ptr) {a b : Nat} (h : a ≤ b) :
    (m.read p b).drop a = m.read (p.add a) (b - a) :=
  (read_drop (by rw [Nat.add_sub_cancel' h])).symm

theorem read_congr {a b : Mem} {p : Ptr} {n : Nat}
    (h : ∀ j, p.off ≤ j → j < p.off + n → a p.region j = b p.region j) :
    a.read p n = b.read p n := by
  induction n generalizing p with
  | zero => rfl
  | succ n ih =>
    rw [read_succ, read_succ, h _ le_rfl (by omega),
      ih (p := p.add 1) (fun j h1 h2 => h j (by simp at h1; omega) (by simp at h2; omega))]

theorem write_append (m : Mem) (p : Ptr) (xs ys : List UInt8) :
    m.write p (xs ++ ys) = (m.write p xs).write (p.add xs.length) ys := by
  induction xs generalizing m p with
  | nil => simp
  | cons x xs ih =>
    rw [List.cons_append, write_cons, write_cons, ih, Ptr.add_add, List.length_cons]
    push_cast
    rw [Int.add_comm 1]

end Mem

/-- One access of a C routine: `n` bytes read or written from `p` on. -/
inductive Access
  | read (p : Ptr) (n : Nat)
  | write (p : Ptr) (n : Nat)
  deriving DecidableEq, Repr

namespace Access

def ptr : Access → Ptr
  | read p _ => p
  | write p _ => p

def len : Access → Nat
  | read _ n => n
  | write _ n => n

def isWrite : Access → Bool
  | read _ _ => false
  | write _ _ => true

/-- Byte `j` of region `r` lies in the accessed range. -/
def Touches (a : Access) (r : Region) (j : Int) : Prop :=
  a.ptr.region = r ∧ a.ptr.off ≤ j ∧ j < a.ptr.off + a.len

/-- The access writes byte `j` of region `r`. -/
def Writes (a : Access) (r : Region) (j : Int) : Prop := a.isWrite = true ∧ a.Touches r j

/-- Every byte of region `r` the access touches lies in `[lo, hi)`. -/
def Within (a : Access) (r : Region) (lo hi : Int) : Prop :=
  ∀ j, a.Touches r j → lo ≤ j ∧ j < hi

@[simp] theorem touches_read (p : Ptr) (n : Nat) (r : Region) (j : Int) :
    (read p n).Touches r j ↔ p.region = r ∧ p.off ≤ j ∧ j < p.off + n := Iff.rfl

@[simp] theorem touches_write (p : Ptr) (n : Nat) (r : Region) (j : Int) :
    (write p n).Touches r j ↔ p.region = r ∧ p.off ≤ j ∧ j < p.off + n := Iff.rfl

@[simp] theorem writes_read (p : Ptr) (n : Nat) (r : Region) (j : Int) :
    ¬ (read p n).Writes r j := by simp [Writes, isWrite]

@[simp] theorem writes_write (p : Ptr) (n : Nat) (r : Region) (j : Int) :
    (write p n).Writes r j ↔ p.region = r ∧ p.off ≤ j ∧ j < p.off + n := by
  simp [Writes, isWrite]

theorem within_of_region_ne {a : Access} {r : Region} (lo hi : Int) (h : a.ptr.region ≠ r) :
    a.Within r lo hi := fun _ ht => absurd ht.1 h

theorem within_read {p : Ptr} {n : Nat} {r : Region} {lo hi : Int}
    (h : p.region = r → lo ≤ p.off ∧ p.off + n ≤ hi) : (read p n).Within r lo hi := by
  intro j ⟨hr, h1, h2⟩
  have := h hr
  simp only [ptr, len] at h1 h2
  omega

theorem within_write {p : Ptr} {n : Nat} {r : Region} {lo hi : Int}
    (h : p.region = r → lo ≤ p.off ∧ p.off + n ≤ hi) : (write p n).Within r lo hi := by
  intro j ⟨hr, h1, h2⟩
  have := h hr
  simp only [ptr, len] at h1 h2
  omega

/-- Every byte the access touches lies in the first `bound r` bytes of its
region `r`. -/
def Bounded (bound : Region → Int) (a : Access) : Prop := ∀ r, a.Within r 0 (bound r)

theorem Bounded.mono {a : Access} {b b' : Region → Int} (h : a.Bounded b)
    (hb : ∀ r, b r ≤ b' r) : a.Bounded b' :=
  fun r j ht => ⟨(h r j ht).1, lt_of_lt_of_le (h r j ht).2 (hb r)⟩

theorem bounded_read {bound : Region → Int} {p : Ptr} {n : Nat} (h0 : 0 ≤ p.off)
    (h1 : p.off + n ≤ bound p.region) : (read p n).Bounded bound :=
  fun _ => within_read fun hr => ⟨h0, hr ▸ h1⟩

theorem bounded_write {bound : Region → Int} {p : Ptr} {n : Nat} (h0 : 0 ≤ p.off)
    (h1 : p.off + n ≤ bound p.region) : (write p n).Bounded bound :=
  fun _ => within_write fun hr => ⟨h0, hr ▸ h1⟩

end Access

/-- A run of C code: the memory it leaves and the accesses it made, oldest
first. -/
structure State where
  mem : Mem
  trace : List Access

namespace State

/-- Memory that reads zero everywhere, before any access. -/
def zero : State := ⟨fun _ _ => 0, []⟩

/-- `from` filled with the byte 7 and `param` with the byte 2, the rest zero,
before any access. -/
def sample : State := ⟨fun r _ => if r = .fromBuf then 7 else if r = .paramBuf then 2 else 0, []⟩

/-- Record a read of `n` bytes at `p`. -/
def look (s : State) (p : Ptr) (n : Nat) : State := ⟨s.mem, s.trace ++ [.read p n]⟩

/-- Write a byte string at `p` and record the write. -/
def put (s : State) (p : Ptr) (bs : List UInt8) : State :=
  ⟨s.mem.write p bs, s.trace ++ [.write p bs.length]⟩

@[simp] theorem look_mem (s : State) (p : Ptr) (n : Nat) : (s.look p n).mem = s.mem := rfl

@[simp] theorem look_trace (s : State) (p : Ptr) (n : Nat) :
    (s.look p n).trace = s.trace ++ [.read p n] := rfl

@[simp] theorem put_mem (s : State) (p : Ptr) (bs : List UInt8) :
    (s.put p bs).mem = s.mem.write p bs := rfl

@[simp] theorem put_trace (s : State) (p : Ptr) (bs : List UInt8) :
    (s.put p bs).trace = s.trace ++ [.write p bs.length] := rfl

end State

/-- What a call that returns shows from outside: its result and the accesses
it made, but not the bytes it read or wrote. -/
def observe {α : Type} (r : α × State) : α × List Access := (r.1, r.2.trace)

@[simp] theorem observe_mk {α : Type} (a : α) (s : State) : observe (a, s) = (a, s.trace) := rfl

/-- Two calls look alike when neither returns, or both return one value from
states with one trace. -/
theorem map_observe_eq_iff {α : Type} {o₁ o₂ : Option (α × State)} :
    o₁.map observe = o₂.map observe ↔
      (o₁ = none ∧ o₂ = none) ∨
        ∃ a t₁ t₂, o₁ = some (a, t₁) ∧ o₂ = some (a, t₂) ∧ t₁.trace = t₂.trace := by
  rcases o₁ with _ | ⟨a, t₁⟩ <;> rcases o₂ with _ | ⟨b, t₂⟩
  · simp
  · simp
  · simp
  constructor
  · intro h
    simp only [Option.map_some', observe_mk, Option.some.injEq, Prod.mk.injEq] at h
    obtain ⟨rfl, h⟩ := h
    exact .inr ⟨a, t₁, t₂, rfl, rfl, h⟩
  · rintro (⟨⟨⟩, -⟩ | ⟨_, _, _, ⟨⟩, ⟨⟩, h⟩)
    simp [h]

/-- A stretch of a run, from `s` to `s'`, whose accesses all stay within the
first `bound r` bytes of each region `r`. -/
def Confined (bound : Region → Int) (s s' : State) : Prop :=
  ∃ t, s'.trace = s.trace ++ t ∧ ∀ a ∈ t, a.Bounded bound

namespace Confined

variable {bound : Region → Int} {s s' s'' : State}

theorem refl (s : State) : Confined bound s s := ⟨[], by simp, by simp⟩

theorem trans (h : Confined bound s s') (h' : Confined bound s' s'') : Confined bound s s'' := by
  obtain ⟨t, ht, hb⟩ := h
  obtain ⟨t', ht', hb'⟩ := h'
  refine ⟨t ++ t', by rw [ht', ht, List.append_assoc], fun a ha => ?_⟩
  rcases List.mem_append.1 ha with ha | ha
  · exact hb a ha
  · exact hb' a ha

theorem of_trace {t : List Access} (h : s'.trace = s.trace ++ t) (hb : ∀ a ∈ t, a.Bounded bound) :
    Confined bound s s' := ⟨t, h, hb⟩

end Confined

/-! ### The C library routines and statements the OAEP code uses -/

section Routines

variable (s : State) (p dst src : Ptr) (n : Nat)

/-- `memset(p, c, n)`. -/
def memset (c : UInt8) : State := s.put p (List.replicate n c)

/-- `memcpy(dst, src, n)`. -/
def memcpy : State := (s.look src n).put dst (s.mem.read src n)

/-- `freezero(p, n)`: the `n` bytes are cleared before the memory is released;
the release itself changes nothing the model observes. -/
def freezero : State := s.put p (List.replicate n 0)

/-- The C statement `p[0] = v`. -/
def storeByte (v : UInt8) : State := s.put p [v]

/-- `timingsafe_memcmp(a, b, n) != 0`: whether the two ranges differ. -/
def timingsafeMemcmp (a b : Ptr) : Bool × State :=
  (s.mem.read a n != s.mem.read b n, (s.look a n).look b n)

@[simp] theorem memset_mem (c : UInt8) :
    (memset s p n c).mem = s.mem.write p (List.replicate n c) := rfl

@[simp] theorem memset_trace (c : UInt8) :
    (memset s p n c).trace = s.trace ++ [.write p n] := by simp [memset]

@[simp] theorem memcpy_mem : (memcpy s dst src n).mem = s.mem.write dst (s.mem.read src n) := rfl

@[simp] theorem memcpy_trace :
    (memcpy s dst src n).trace = s.trace ++ [.read src n, .write dst n] := by simp [memcpy]

@[simp] theorem freezero_mem : (freezero s p n).mem = s.mem.write p (List.replicate n 0) := rfl

@[simp] theorem freezero_trace : (freezero s p n).trace = s.trace ++ [.write p n] := by
  simp [freezero]

theorem freezero_read : (freezero s p n).mem.read p n = List.replicate n 0 := by
  simpa using Mem.read_write_same s.mem p (List.replicate n 0)

@[simp] theorem storeByte_mem (v : UInt8) : (storeByte s p v).mem = s.mem.write p [v] := rfl

@[simp] theorem storeByte_trace (v : UInt8) :
    (storeByte s p v).trace = s.trace ++ [.write p 1] := rfl

@[simp] theorem timingsafeMemcmp_fst (a b : Ptr) :
    (timingsafeMemcmp s n a b).1 = (s.mem.read a n != s.mem.read b n) := rfl

@[simp] theorem timingsafeMemcmp_mem (a b : Ptr) : (timingsafeMemcmp s n a b).2.mem = s.mem := rfl

@[simp] theorem timingsafeMemcmp_trace (a b : Ptr) :
    (timingsafeMemcmp s n a b).2.trace = s.trace ++ [.read a n, .read b n] := by
  simp [timingsafeMemcmp]

/-- The C loop `for (i = 0; i < n; i++) dst[i] ^= src[i];`, one byte at a time:
read `dst[i]`, read `src[i]`, write `dst[i]`. -/
def xorLoop : State → Ptr → Ptr → Nat → State
  | s, _, _, 0 => s
  | s, dst, src, n + 1 =>
    xorLoop (((s.look dst 1).look src 1).put dst [s.mem dst.region dst.off ^^^ s.mem src.region src.off])
      (dst.add 1) (src.add 1) n

/-- Over non-overlapping ranges the loop writes the exclusive-or of the two
ranges as they were before it. -/
theorem xorLoop_mem {s : State} {dst src : Ptr} {n : Nat}
    (h : dst.region ≠ src.region ∨ dst.off + n ≤ src.off ∨ src.off + n ≤ dst.off) :
    (xorLoop s dst src n).mem = s.mem.write dst (xorBytes (s.mem.read dst n) (s.mem.read src n)) := by
  induction n generalizing s dst src with
  | zero => simp [xorLoop]
  | succ n ih =>
    push_cast at h
    have h' : (dst.add 1).region ≠ (src.add 1).region ∨ (dst.add 1).off + n ≤ (src.add 1).off ∨
        (src.add 1).off + n ≤ (dst.add 1).off := by
      simp only [Ptr.add_region, Ptr.add_off]
      rcases h with h | h | h
      · exact .inl h
      · exact .inr (.inl (by omega))
      · exact .inr (.inr (by omega))
    have hsrc : (src.add 1).region ≠ dst.region ∨ (src.add 1).off + n ≤ dst.off ∨
        dst.off + ([] : List UInt8).length + 1 ≤ (src.add 1).off := by
      simp only [Ptr.add_region, Ptr.add_off, List.length_nil, Nat.cast_zero]
      rcases h with h | h | h
      · exact .inl (Ne.symm h)
      · exact .inr (.inr (by omega))
      · exact .inr (.inl (by omega))
    rw [xorLoop, ih h', State.put_mem, State.look_mem, State.look_mem,
      Mem.read_write_disjoint (by simp), Mem.read_write_disjoint (by simpa using hsrc)]
    rfl

theorem xorLoop_trace (s : State) (dst src : Ptr) (n : Nat) :
    ∃ t, (xorLoop s dst src n).trace = s.trace ++ t ∧ ∀ a ∈ t, ∃ i : Nat, i < n ∧
      (a = .read (dst.add i) 1 ∨ a = .read (src.add i) 1 ∨ a = .write (dst.add i) 1) := by
  induction n generalizing s dst src with
  | zero => exact ⟨[], by simp [xorLoop], by simp⟩
  | succ n ih =>
    obtain ⟨t, ht, hall⟩ := ih (((s.look dst 1).look src 1).put dst
      [s.mem dst.region dst.off ^^^ s.mem src.region src.off]) (dst.add 1) (src.add 1)
    refine ⟨[.read dst 1, .read src 1, .write dst 1] ++ t, by simp [xorLoop, ht], ?_⟩
    intro a ha
    simp only [List.mem_append, List.mem_cons, List.not_mem_nil, or_false] at ha
    rcases ha with (rfl | rfl | rfl) | ha
    · exact ⟨0, by omega, by simp⟩
    · exact ⟨0, by omega, by simp⟩
    · exact ⟨0, by omega, by simp⟩
    · obtain ⟨i, hi, hai⟩ := hall a ha
      refine ⟨i + 1, by omega, ?_⟩
      simpa only [Ptr.add_add, Nat.cast_add, Nat.cast_one, Int.add_comm 1] using hai

theorem xorLoop_trace_congr {s₁ s₂ : State} (ht : s₁.trace = s₂.trace) (dst src : Ptr) (n : Nat) :
    (xorLoop s₁ dst src n).trace = (xorLoop s₂ dst src n).trace := by
  induction n generalizing s₁ s₂ dst src with
  | zero => exact ht
  | succ n ih => exact ih (by simp [ht]) _ _

theorem xorLoop_apply_outside {s : State} {dst src : Ptr} {n : Nat} {r : Region} {j : Int}
    (h : r ≠ dst.region ∨ j < dst.off ∨ dst.off + n ≤ j) : (xorLoop s dst src n).mem r j = s.mem r j := by
  induction n generalizing s dst src with
  | zero => rfl
  | succ n ih =>
    push_cast at h
    have h' : r ≠ (dst.add 1).region ∨ j < (dst.add 1).off ∨ (dst.add 1).off + n ≤ j := by
      simp only [Ptr.add_region, Ptr.add_off]
      rcases h with h | h | h
      · exact .inl h
      · exact .inr (.inl (by omega))
      · exact .inr (.inr (by omega))
    rw [xorLoop, ih h']
    refine Mem.write_apply_outside ?_
    simp only [List.length_singleton, Nat.cast_one]
    rcases h with h | h | h
    · exact .inl h
    · exact .inr (.inl h)
    · exact .inr (.inr (by omega))

theorem xorLoop_bounded (s : State) {dst src : Ptr} {n : Nat} {bound : Region → Int}
    (hd : 0 ≤ dst.off ∧ dst.off + n ≤ bound dst.region)
    (hs : 0 ≤ src.off ∧ src.off + n ≤ bound src.region) :
    ∃ t, (xorLoop s dst src n).trace = s.trace ++ t ∧ ∀ a ∈ t, a.Bounded bound := by
  obtain ⟨t, ht, hall⟩ := xorLoop_trace s dst src n
  refine ⟨t, ht, fun a ha => ?_⟩
  obtain ⟨i, hi, rfl | rfl | rfl⟩ := hall a ha
  · exact Access.bounded_read (by simp; omega) (by simp; omega)
  · exact Access.bounded_read (by simp; omega) (by simp; omega)
  · exact Access.bounded_write (by simp; omega) (by simp; omega)

end Routines

end Libcrypto
