import FreeBsd.Pcfs.PcfsAlloc

/-! The root directory of an MS-DOS volume, which is not made of clusters but mapped as if it were.
-/
namespace FreeBsd.Pcfs

section Model

structure Bpb where
  bytesPerSec : UInt16
  secPerClust : UInt8
  resSectors : UInt16
  fats : UInt8
  rootDirEnts : UInt16
  fatSecs : UInt16
  deriving DecidableEq

def sizeofDirentry : Nat := 32

def Bpb.rootdirblk (b : Bpb) : Nat := b.resSectors.toNat + b.fats.toNat * b.fatSecs.toNat

def Bpb.rootdirsize (b : Bpb) : Nat := b.rootDirEnts.toNat * sizeofDirentry / b.bytesPerSec.toNat

/-- `mountpcfs` accepts a volume where one bit is set in the bytes of a cluster. -/
def Bpb.Mounted (b : Bpb) : Prop := ∃ i < 32, b.secPerClust.toNat * b.bytesPerSec.toNat = 2 ^ i

/-- What `pcbmap` returns, and what it stores in `*bnp` and `*cnp`. -/
structure Mapped where
  error : Nat
  bn : Option Nat
  cn : Option Nat
  deriving DecidableEq

def PCFSROOT : Nat := 0

/-- The product of `u_long`s that `pcbmap` compares with the size. -/
def Bpb.sectors (b : Bpb) (findcn : Nat) : Nat := findcn * b.secPerClust.toNat % 2 ^ 32

/-- `pcbmap` of a denode that starts with cluster `PCFSROOT`. -/
def pcbmapRoot (b : Bpb) (directory : Bool) (findcn : Nat) : Mapped :=
  if directory then
    if b.sectors findcn > b.rootdirsize then ⟨E2BIG, none,
      some (b.rootdirsize / b.secPerClust.toNat)⟩
    else ⟨0, some (b.rootdirblk + b.sectors findcn), some PCFSROOT⟩
  -- just an empty file
  else ⟨E2BIG, none, some 0⟩

/-- The sectors that are read by asking for clusters `findcn`, `findcn + 1` and so on, `fuel` times
at most. -/
def Bpb.scan (b : Bpb) : (fuel findcn : Nat) → List Nat
  | 0, _ => []
  | fuel + 1, findcn =>
    match pcbmapRoot b true findcn with
    | ⟨0, some bn, _⟩ => List.range' bn b.secPerClust.toNat ++ b.scan fuel (findcn + 1)
    | _ => []

def Bpb.Inside (b : Bpb) (m : Mapped) : Prop :=
  (m.error = 0 → ∃ bn ∈ m.bn, b.rootdirblk ≤ bn ∧
    bn + b.secPerClust.toNat ≤ b.rootdirblk + b.rootdirsize) ∧
    (m.error ≠ 0 → m.error = E2BIG ∧ m.cn = some (b.rootdirsize / b.secPerClust.toNat))

end Model

section Root

variable {b : Bpb} {findcn fuel : Nat}

theorem Bpb.Mounted.positive (mounted : b.Mounted) : 0 < b.secPerClust.toNat := by
  obtain ⟨i, -, bytes⟩ := mounted
  refine Nat.pos_of_ne_zero fun zero => ?_
  rw [zero, Nat.zero_mul] at bytes
  exact absurd bytes.symm (Nat.pow_eq_zero.not.mpr (by simp))

theorem Bpb.rootdirsize_lt (b : Bpb) : b.rootdirsize < 2 ^ 22 := by
  have entries : b.rootDirEnts.toNat < 2 ^ 16 := b.rootDirEnts.toNat_lt
  have size : b.rootdirsize ≤ b.rootDirEnts.toNat * 32 := Nat.div_le_self ..
  omega

theorem Bpb.sectors_eq (near : findcn ≤ b.rootdirsize / b.secPerClust.toNat + 1) :
    b.sectors findcn = findcn * b.secPerClust.toNat := by
  have size := b.rootdirsize_lt
  have small : b.secPerClust.toNat < 2 ^ 8 := b.secPerClust.toNat_lt
  have whole := Nat.div_mul_le_self b.rootdirsize b.secPerClust.toNat
  have next := Nat.mul_le_mul_right b.secPerClust.toNat near
  rw [Nat.add_mul, Nat.one_mul] at next
  exact Nat.mod_eq_of_lt (by omega)

theorem Bpb.scan_eq (mounted : b.Mounted) (near : findcn ≤ b.rootdirsize / b.secPerClust.toNat + 1)
    (enough : b.rootdirsize / b.secPerClust.toNat + 1 < fuel + findcn) :
    b.scan fuel findcn = List.range' (b.rootdirblk + findcn * b.secPerClust.toNat)
      ((b.rootdirsize / b.secPerClust.toNat + 1 - findcn) * b.secPerClust.toNat) := by
  have positive := mounted.positive
  induction fuel generalizing findcn with
  | zero => lia
  | succ fuel ih =>
    have here := Bpb.sectors_eq near
    rw [Bpb.scan, pcbmapRoot, if_pos rfl, here]
    by_cases last : findcn = b.rootdirsize / b.secPerClust.toNat + 1
    · have beyond : findcn * b.secPerClust.toNat > b.rootdirsize := by
        rw [last]
        exact (Nat.div_lt_iff_lt_mul positive).mp (Nat.lt_succ_self _)
      rw [if_pos beyond, last, Nat.sub_self, Nat.zero_mul]
      rfl
    · have inside : findcn * b.secPerClust.toNat ≤ b.rootdirsize :=
        (Nat.le_div_iff_mul_le positive).mp (by lia)
      rw [if_neg (by lia)]
      change List.range' (b.rootdirblk + _) _ ++ b.scan fuel (findcn + 1) = _
      rw [ih (by lia) (by lia)]
      obtain ⟨left, rest⟩ : ∃ left, b.rootdirsize / b.secPerClust.toNat + 1 - findcn = left + 1 :=
        Nat.exists_eq_add_one.mpr (by lia)
      have next : b.rootdirsize / b.secPerClust.toNat + 1 - (findcn + 1) = left := by lia
      rw [rest, next, Nat.add_mul findcn, Nat.one_mul, ← Nat.add_assoc, Nat.add_mul left, Nat.one_mul,
        Nat.add_comm (left * _)]
      exact List.range'_append_1 ..

/-- A call is right where the cluster is whole or begins behind the end; a scan always goes too far.
-/
theorem pcbmapRoot_iff (mounted : b.Mounted) (findcn : Nat) :
    (b.Inside (pcbmapRoot b true findcn) ↔
      b.sectors findcn + b.secPerClust.toNat ≤ b.rootdirsize ∨ b.rootdirsize < b.sectors findcn) ∧
    ∀ fuel, b.rootdirsize + 1 < fuel → b.scan fuel 0 ≠ List.range' b.rootdirblk b.rootdirsize := by
  have positive := mounted.positive
  constructor
  · rw [pcbmapRoot, if_pos rfl]
    by_cases beyond : b.sectors findcn > b.rootdirsize
    · rw [if_pos beyond]
      refine ⟨fun _ => .inr beyond, fun _ => ⟨by rintro ⟨⟩, fun _ => ⟨rfl, rfl⟩⟩⟩
    · rw [if_neg beyond]
      constructor
      · rintro ⟨success, -⟩
        obtain ⟨bn, is, -, whole⟩ := success rfl
        cases is
        exact .inl (by omega)
      · rintro (whole | behind)
        · exact ⟨fun _ => ⟨_, rfl, by omega, by omega⟩, fun failure => absurd rfl failure⟩
        · exact absurd behind beyond
  · intro fuel enough same
    have clusters := Nat.div_le_self b.rootdirsize b.secPerClust.toNat
    have visited :=
      congrArg List.length ((Bpb.scan_eq mounted (Nat.zero_le _) (by omega)).symm.trans same)
    rw [List.length_range', List.length_range', Nat.sub_zero] at visited
    have past : b.rootdirsize < (b.rootdirsize / b.secPerClust.toNat + 1) * b.secPerClust.toNat :=
      (Nat.div_lt_iff_lt_mul positive).mp (Nat.lt_succ_self _)
    omega

/-- The boot sector of a double density floppy disk, with a root directory of seven sectors. -/
def bootsector : Bpb := ⟨512, 2, 1, 2, 112, 3⟩

theorem bootsector_mounted : bootsector.Mounted := ⟨10, by decide⟩

theorem pcbmapRoot_bootsector : bootsector.Inside (pcbmapRoot bootsector true 2) :=
  (pcbmapRoot_iff bootsector_mounted 2).1.mpr (.inl (by decide))

/-- With one sector in a cluster, the cluster at the end is the first of the data. -/
theorem pcbmapRoot_end : (⟨512, 1, 1, 2, 112, 3⟩ : Bpb).Mounted ∧
    ¬ (⟨512, 1, 1, 2, 112, 3⟩ : Bpb).Inside (pcbmapRoot ⟨512, 1, 1, 2, 112, 3⟩ true 7) ∧
    (⟨512, 1, 1, 2, 112, 3⟩ : Bpb).scan 9 0 = List.range' 7 8 := by
  refine ⟨⟨9, by decide⟩, ?_, by decide⟩
  rintro ⟨success, -⟩
  obtain ⟨bn, is, -, whole⟩ := success (by decide)
  have block : bn = 14 := (Option.some.inj is).symm
  rw [block] at whole
  exact absurd whole (by decide)

end Root

end FreeBsd.Pcfs
