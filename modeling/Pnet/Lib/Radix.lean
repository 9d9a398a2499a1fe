import Mathlib.Data.List.DropRight
import Mathlib.Data.Nat.Digits.Defs

/-! Natural numbers held in fixed-width words, least significant first. The
value is Mathlib's `Nat.ofDigits`; what is added here is how it meets word
truncation, trimming of leading zeros and comparison from the top. -/
namespace Pnet.Lib.Radix

variable {w : Nat}

def value (ws : List (BitVec w)) : Nat :=
  Nat.ofDigits (2 ^ w) (ws.map BitVec.toNat)

@[simp] theorem value_nil : value ([] : List (BitVec w)) = 0 := by
  simp [value]

@[simp] theorem value_cons (d : BitVec w) (ws : List (BitVec w)) :
    value (d :: ws) = d.toNat + 2 ^ w * value ws := by
  simp [value, Nat.ofDigits_cons]

theorem value_append (lo hi : List (BitVec w)) :
    value (lo ++ hi) = value lo + (2 ^ w) ^ lo.length * value hi := by
  simp [value, Nat.ofDigits_append]

theorem value_concat (ws : List (BitVec w)) (top : BitVec w) :
    value (ws ++ [top]) = value ws + (2 ^ w) ^ ws.length * top.toNat := by
  simp [value_append]

theorem value_replicate_zero (n : Nat) : value (List.replicate n 0#w) = 0 := by
  induction n with
  | zero => rfl
  | succ n ih => simp [List.replicate_succ, ih]

theorem value_lt (ws : List (BitVec w)) : value ws < (2 ^ w) ^ ws.length := by
  induction ws with
  | nil => simp
  | cons d ws ih =>
    have hd : d.toNat + 1 ≤ 2 ^ w := d.isLt
    have hmul := Nat.mul_le_mul_left (2 ^ w) (Nat.succ_le_of_lt ih)
    rw [value_cons, List.length_cons, Nat.pow_succ, Nat.mul_comm ((2 ^ w) ^ ws.length)]
    rw [Nat.mul_succ] at hmul
    omega

/-- Two numbers of the same digits and length are the same digit list. -/
theorem eq_of_value_eq {xs ys : List (BitVec w)} (hlen : xs.length = ys.length)
    (h : value xs = value ys) : xs = ys := by
  induction xs generalizing ys with
  | nil => exact (List.length_eq_zero_iff.mp hlen.symm).symm
  | cons x xs ih =>
    cases ys with
    | nil => simp at hlen
    | cons y ys =>
      simp only [value_cons] at h
      have hx : (x.toNat + 2 ^ w * value xs) % 2 ^ w = x.toNat := by
        rw [Nat.add_mul_mod_self_left, Nat.mod_eq_of_lt x.isLt]
      have hy : (y.toNat + 2 ^ w * value ys) % 2 ^ w = y.toNat := by
        rw [Nat.add_mul_mod_self_left, Nat.mod_eq_of_lt y.isLt]
      have hd : x.toNat = y.toNat := by rw [← hx, h, hy]
      have htail : value xs = value ys :=
        Nat.eq_of_mul_eq_mul_left (Nat.two_pow_pos w) (by omega)
      rw [BitVec.eq_of_toNat_eq hd, ih (by simpa using hlen) htail]

/-- A difference that wrapped `out` times did not wrap if it is not negative. -/
theorem value_eq_sub {ws xs : List (BitVec w)} {sub out : Nat} (hlen : ws.length = xs.length)
    (h : value ws + sub = value xs + (2 ^ w) ^ xs.length * out) (hle : sub ≤ value xs) :
    value ws = value xs - sub := by
  have hlt := value_lt ws
  rw [hlen] at hlt
  have hzero : out = 0 := by
    by_contra hne
    have hmul := Nat.mul_le_mul_left ((2 ^ w) ^ xs.length) (Nat.one_le_iff_ne_zero.mpr hne)
    omega
  rw [hzero] at h
  omega

/-! ### No leading zero words -/

/-- The most significant word, if there is one, is not zero. -/
def Trimmed (ws : List (BitVec w)) : Prop := ws.getLast? ≠ some 0#w

instance (ws : List (BitVec w)) : Decidable (Trimmed ws) := inferInstanceAs (Decidable (_ ≠ _))

def trim (ws : List (BitVec w)) : List (BitVec w) := ws.rdropWhile (· == 0#w)

theorem trimmed_nil : Trimmed ([] : List (BitVec w)) := by simp [Trimmed]

theorem trimmed_concat (ws : List (BitVec w)) (top : BitVec w) :
    Trimmed (ws ++ [top]) ↔ top ≠ 0#w := by
  simp [Trimmed]

theorem trim_concat (ws : List (BitVec w)) (top : BitVec w) :
    trim (ws ++ [top]) = if top = 0#w then trim ws else ws ++ [top] := by
  simp only [trim, List.rdropWhile_concat, beq_iff_eq]

@[simp] theorem value_trim (ws : List (BitVec w)) : value (trim ws) = value ws := by
  induction ws using List.reverseRecOn with
  | nil => rfl
  | append_singleton ws top ih =>
    rw [trim_concat]
    split
    · rename_i hzero
      simp [ih, value_concat, hzero]
    · rfl

theorem trimmed_trim (ws : List (BitVec w)) : Trimmed (trim ws) := by
  induction ws using List.reverseRecOn with
  | nil => exact trimmed_nil
  | append_singleton ws top ih =>
    rw [trim_concat]
    split
    · exact ih
    · rename_i hne
      exact (trimmed_concat ws top).mpr hne

theorem length_trim_le (ws : List (BitVec w)) : (trim ws).length ≤ ws.length :=
  (List.rdropWhile_prefix _ ws).length_le

/-- A trimmed number is at least the weight of its top word. -/
theorem pow_le_value {ws : List (BitVec w)} (h : Trimmed ws) (hne : ws ≠ []) :
    (2 ^ w) ^ (ws.length - 1) ≤ value ws := by
  obtain ⟨lo, top, rfl⟩ := (List.eq_nil_or_concat' ws).resolve_left hne
  have htop : top ≠ 0#w := (trimmed_concat lo top).mp h
  have hpos : 1 ≤ top.toNat := by
    rcases Nat.eq_zero_or_pos top.toNat with hz | hz
    · exact absurd (BitVec.eq_of_toNat_eq (by simpa using hz)) htop
    · exact hz
  rw [value_concat, List.length_append, List.length_singleton, Nat.add_sub_cancel]
  have := Nat.mul_le_mul_left ((2 ^ w) ^ lo.length) hpos
  omega

/-- A trimmed number has more than `i` words when it reaches the weight of word `i`. -/
theorem pow_le_value_iff {ws : List (BitVec w)} (h : Trimmed ws) (i : Nat) :
    (2 ^ w) ^ i ≤ value ws ↔ i < ws.length := by
  have hbase : 0 < 2 ^ w := Nat.two_pow_pos w
  constructor
  · intro hle
    by_contra hge
    have hlt := value_lt ws
    have hpow : (2 ^ w) ^ ws.length ≤ (2 ^ w) ^ i := Nat.pow_le_pow_right hbase (by omega)
    omega
  · intro hlt
    have hne : ws ≠ [] := by
      rintro rfl
      simp at hlt
    exact (Nat.pow_le_pow_right hbase (by omega)).trans (pow_le_value h hne)

theorem value_eq_zero_iff {ws : List (BitVec w)} (h : Trimmed ws) : value ws = 0 ↔ ws = [] := by
  constructor
  · intro hzero
    by_contra hne
    have hle := pow_le_value h hne
    have hpos : 0 < (2 ^ w) ^ (ws.length - 1) := Nat.pow_pos (Nat.two_pow_pos w)
    omega
  · rintro rfl
    exact value_nil

/-- Fewer words means a smaller number, once leading zeros are gone. -/
theorem value_lt_of_length_lt {xs ys : List (BitVec w)} (hy : Trimmed ys)
    (h : xs.length < ys.length) : value xs < value ys := by
  have hne : ys ≠ [] := by
    rintro rfl
    simp at h
  calc value xs < (2 ^ w) ^ xs.length := value_lt xs
    _ ≤ (2 ^ w) ^ (ys.length - 1) := Nat.pow_le_pow_right (Nat.two_pow_pos w) (by omega)
    _ ≤ value ys := pow_le_value hy hne

/-! ### Digits of a number -/

theorem mod_pow_succ {b d : Nat} (n i : Nat) (hd : d < b) :
    (d + b * n) % b ^ (i + 1) = d + b * (n % b ^ i) := by
  have hpos : 0 < b ^ i := Nat.pow_pos (by omega)
  have hlt := Nat.mul_le_mul_left b (Nat.succ_le_of_lt (Nat.mod_lt n hpos))
  have hsplit : d + b * n = d + b * (n % b ^ i) + b ^ (i + 1) * (n / b ^ i) := by
    have hdiv := Nat.div_add_mod n (b ^ i)
    rw [Nat.pow_succ']
    calc d + b * n = d + b * (b ^ i * (n / b ^ i) + n % b ^ i) := by rw [hdiv]
      _ = _ := by ring
  rw [hsplit, Nat.add_mul_mod_self_left, Nat.mod_eq_of_lt]
  rw [Nat.pow_succ']
  rw [Nat.mul_succ] at hlt
  omega

theorem div_pow_succ {b d : Nat} (n i : Nat) (hd : d < b) :
    (d + b * n) / b ^ (i + 1) = n / b ^ i := by
  rw [Nat.pow_succ', ← Nat.div_div_eq_div_mul, Nat.add_mul_div_left _ _ (by omega),
    Nat.div_eq_of_lt hd, Nat.zero_add]

end Pnet.Lib.Radix

/-! ### Most significant digit first

Numbers written most significant digit first, and their shortest encodings. -/
namespace Pnet.Lib.BigEndian

variable {w : Nat}

def value (ds : List (BitVec w)) : Nat := Radix.value ds.reverse

@[simp] theorem value_nil : value ([] : List (BitVec w)) = 0 := Radix.value_nil

theorem value_append (hi lo : List (BitVec w)) :
    value (hi ++ lo) = (2 ^ w) ^ lo.length * value hi + value lo := by
  unfold value
  rw [List.reverse_append, Radix.value_append, List.length_reverse, Nat.add_comm]

@[simp] theorem value_cons (d : BitVec w) (ds : List (BitVec w)) :
    value (d :: ds) = (2 ^ w) ^ ds.length * d.toNat + value ds := by
  rw [← List.singleton_append, value_append]
  simp [value]

/-- A shortest encoding of a number, of at least one digit. -/
structure Encodes (ds : List (BitVec w)) (n : Nat) : Prop where
  value : value ds = n
  nonempty : ds ≠ []
  shortest : ∀ ds' : List (BitVec w), ds' ≠ [] → BigEndian.value ds' = n → ds.length ≤ ds'.length

theorem encodes_zero : Encodes [0#w] 0 := by
  apply Encodes.mk
  · simp
  · simp
  · intro ds' hne _
    exact List.length_pos_of_ne_nil hne

theorem encodes_of_head {d : BitVec w} (ds : List (BitVec w)) (hd : d ≠ 0#w) :
    Encodes (d :: ds) (value (d :: ds)) := by
  apply Encodes.mk rfl (List.cons_ne_nil _ _)
  intro ds' _ hvalue
  apply Nat.le_of_not_lt
  intro hlt
  have htrimmed : Radix.Trimmed (d :: ds).reverse := by
    rw [List.reverse_cons]
    exact (Radix.trimmed_concat _ _).2 hd
  have hless : Radix.value ds'.reverse < Radix.value (d :: ds).reverse := by
    apply Radix.value_lt_of_length_lt htrimmed
    rw [List.length_reverse, List.length_reverse]
    exact hlt
  exact absurd hvalue (Nat.ne_of_lt hless)

end Pnet.Lib.BigEndian
