/-! A binary code: whole numbers in one, three, five or nine bytes, and what is built from them. A
reader takes its value off the front of the bytes. -/
namespace FlowGraph

abbrev Bytes := List UInt8

namespace Bytes

/-- The lowest `count` bytes of a number, least significant first. -/
def littleEndian : Nat → Nat → Bytes
  | 0, _ => []
  | count + 1, n => UInt8.ofNat (n % 256) :: littleEndian count (n / 256)

@[simp] theorem length_littleEndian (count n : Nat) : (littleEndian count n).length = count := by
  induction count generalizing n with
  | zero => rfl
  | succ count ih => simp [littleEndian, ih]

def ofLittleEndian : Bytes → Nat
  | [] => 0
  | b :: bs => b.toNat + 256 * ofLittleEndian bs

theorem ofLittleEndian_littleEndian (count n : Nat) (h : n < Nat.pow 256 count) :
    ofLittleEndian (littleEndian count n) = n := by
  induction count generalizing n with
  | zero => simp_all [littleEndian, ofLittleEndian]
  | succ count ih =>
    have hq : n / 256 < Nat.pow 256 count :=
      Nat.div_lt_of_lt_mul (Nat.lt_of_lt_of_eq h (Nat.mul_comm _ _))
    simp only [littleEndian, ofLittleEndian, ih _ hq]
    have : (UInt8.ofNat (n % 256)).toNat = n % 256 := by simp
    omega

/-- As many ones as the number says, and a zero. -/
def unary (n : Nat) : Bytes := List.replicate n 1 ++ [0]

/-- One byte below 251, else a byte that tells the width and two, four or eight bytes. What does not
fit 64 bits, and no list reaches such a length, follows the next byte in unary, so that every number
has a code. -/
def ofNat (n : Nat) : Bytes :=
  if n < 251 then [UInt8.ofNat n]
  else if n < UInt16.size then 251 :: littleEndian 2 n
  else if n < UInt32.size then 252 :: littleEndian 4 n
  else if n < UInt64.size then 253 :: littleEndian 8 n
  else 254 :: unary n

def ofBool (b : Bool) : Bytes := [if b then 1 else 0]

def ofString (s : String) : Bytes := ofNat s.utf8ByteSize ++ s.toUTF8.data.toList

def ofList {α : Type} (item : α → Bytes) (xs : List α) : Bytes :=
  ofNat xs.length ++ xs.flatMap item

def ofOption {α : Type} (item : α → Bytes) : Option α → Bytes
  | none => [0]
  | some x => 1 :: item x

/-- Takes a value off the front of the bytes. -/
abbrev Reader (α : Type) := Bytes → Option (α × Bytes)

namespace Reader

def fixed (count : Nat) : Reader Bytes := fun bs =>
  if count ≤ bs.length then some (bs.take count, bs.drop count) else none

@[simp] theorem fixed_append (front rest : Bytes) :
    fixed front.length (front ++ rest) = some (front, rest) := by
  simp [fixed]

def byte : Reader UInt8
  | [] => none
  | b :: bs => some (b, bs)

def word (count : Nat) : Reader Nat := fun bs =>
  (fixed count bs).map fun (front, rest) => (ofLittleEndian front, rest)

theorem word_littleEndian (count n : Nat) (h : n < Nat.pow 256 count) (rest : Bytes) :
    word count (littleEndian count n ++ rest) = some (n, rest) := by
  have := fixed_append (littleEndian count n) rest
  rw [length_littleEndian] at this
  simp [word, this, ofLittleEndian_littleEndian count n h]

def unary : Reader Nat
  | [] => none
  | b :: bs => if b = 0 then some (0, bs) else (unary bs).map fun (n, rest) => (n + 1, rest)

theorem unary_unary (n : Nat) (rest : Bytes) : unary (Bytes.unary n ++ rest) = some (n, rest) := by
  induction n with
  | zero => rfl
  | succ n ih =>
    have hstep : unary (Bytes.unary (n + 1) ++ rest) =
        (unary (Bytes.unary n ++ rest)).map fun (n, rest) => (n + 1, rest) := rfl
    rw [hstep, ih]
    rfl

def nat : Reader Nat
  | [] => none
  | b :: bs =>
    if b < 251 then some (b.toNat, bs)
    else if b = 251 then word 2 bs
    else if b = 252 then word 4 bs
    else if b = 253 then word 8 bs
    else if b = 254 then unary bs
    else none

@[simp] theorem nat_ofNat (n : Nat) (rest : Bytes) : nat (ofNat n ++ rest) = some (n, rest) := by
  unfold ofNat
  split
  · next hn =>
    have hlt : UInt8.ofNat n < 251 := by
      rw [UInt8.lt_iff_toNat_lt, UInt8.toNat_ofNat]
      simp
      omega
    have hval : (UInt8.ofNat n).toNat = n := by simp; omega
    simp [nat, hlt, hval]
  · split
    · next hn => exact word_littleEndian 2 n hn rest
    · split
      · next hn => exact word_littleEndian 4 n hn rest
      · split
        · next hn => exact word_littleEndian 8 n hn rest
        · exact unary_unary n rest

def bool : Reader Bool := fun bs =>
  match bs with
  | 0 :: rest => some (false, rest)
  | 1 :: rest => some (true, rest)
  | _ => none

def string : Reader String := fun bs => do
  let (size, bs) ← nat bs
  let (front, rest) ← fixed size bs
  let s ← String.fromUTF8? ⟨front.toArray⟩
  return (s, rest)

def times {α : Type} (item : Reader α) : Nat → Reader (List α)
  | 0, bs => some ([], bs)
  | count + 1, bs => do
    let (x, bs) ← item bs
    let (xs, rest) ← times item count bs
    return (x :: xs, rest)

def list {α : Type} (item : Reader α) : Reader (List α) := fun bs => do
  let (count, bs) ← nat bs
  times item count bs

def option {α : Type} (item : Reader α) : Reader (Option α) := fun bs =>
  match bs with
  | 0 :: rest => some (none, rest)
  | 1 :: rest => (item rest).map fun (x, rest) => (some x, rest)
  | _ => none

end Reader
end Bytes
end FlowGraph
