import KvantOS.Memory.Mtrr
import Mathlib.Data.Nat.BitIndices

/-
  This file proves what write-combining covers: blocks that
  are powers of two and follow each other from the base, as
  long as the address does not wrap around. It also says
  which pairs of registers any run of calls touches.

  Key definitions include:
    * `Fits`, `Arms`
    * `Covers`, `Stays`
    * `Run`, `Calls`

  Key theorems include:
    * `fitSize_fits`, `armLoop_arms`, `Arms.follows_iff`
    * `mtrrSetWc_spec`, `mtrrSetWc_again`
-/

namespace KvantOS.Mtrr

--
-- Powers of Two
--

/- Without its lowest bit, a number has one bit less. -/
theorem bitIndices_sub
    {k r : Nat}
    (hDvd : 2 ^ k ∣ r)
    (hNot : ¬ 2 ^ (k + 1) ∣ r) :
    r.bitIndices.length =
      (r - 2 ^ k).bitIndices.length + 1 := by
  rcases hDvd with ⟨m, rfl⟩
  rcases Nat.even_or_odd' m with ⟨j, rfl | rfl⟩
  · exact absurd ⟨j, by rw [Nat.pow_succ, Nat.mul_assoc]⟩ hNot
  · have hSub : 2 ^ k * (2 * j + 1) - 2 ^ k =
        2 ^ k * (2 * j) := by
      rw [Nat.mul_add, Nat.mul_one, Nat.add_sub_cancel]
    simp [hSub]

/- The greatest power of two that fits and divides. -/
structure Fits (addr left k : Nat) : Prop where
  le : 2 ^ k ≤ left
  dvd : 20 ≤ k → 2 ^ k ∣ addr
  greatest : 2 ^ (k + 1) ≤ left → ¬ 2 ^ (k + 1) ∣ addr

theorem mib_le_iff {k : Nat} : mib ≤ 2 ^ k ↔ 20 ≤ k :=
  @Nat.pow_le_pow_iff_right 2 20 k (by decide)

theorem pow2Loop_spec
    {v turns k : Nat}
    (hBound : v < 2 ^ 32)
    (hLe : 2 ^ k ≤ v)
    (hTurns : 32 ≤ k + turns) :
    ∃ j < 32, pow2Loop v turns (2 ^ k) = some (2 ^ j) ∧
      2 ^ j ≤ v ∧ v < 2 ^ (j + 1) := by
  have hk : k < 32 :=
    (Nat.pow_lt_pow_iff_right (by decide)).mp
      (Nat.lt_of_le_of_lt hLe hBound)
  induction turns generalizing k with
  | zero => omega
  | succ turns ih =>
      unfold pow2Loop
      rw [Nat.shiftLeft_eq, ← Nat.pow_add]
      dsimp only
      by_cases hNext : 2 ^ (k + 1) ≤ v
      · have hPos := Nat.two_pow_pos (k + 1)
        have hMod : 2 ^ (k + 1) % 2 ^ 32 = 2 ^ (k + 1) :=
          Nat.mod_eq_of_lt (Nat.lt_of_le_of_lt hNext hBound)
        have hk' : k + 1 < 32 :=
          (Nat.pow_lt_pow_iff_right (by decide)).mp
            (Nat.lt_of_le_of_lt hNext hBound)
        rw [hMod, if_pos ⟨by omega, hNext⟩]
        exact ih hNext (by omega) hk'
      · refine ⟨k, hk, if_neg ?_, hLe, by omega⟩
        rintro ⟨hSome, hLe'⟩
        rcases Nat.lt_or_ge (k + 1) 32 with hLess | hGe
        · have hLess := Nat.pow_lt_pow_right
            (by decide : 1 < 2) hLess
          rw [Nat.mod_eq_of_lt hLess] at hLe'
          exact hNext hLe'
        · have hTop : k + 1 = 32 := by omega
          rw [hTop, Nat.mod_self] at hSome
          exact hSome rfl

theorem fitLoop_spec
    {base size turns k : Nat}
    (hLe : 2 ^ k ≤ size)
    (hGreatest : 2 ^ (k + 1) ≤ size → ¬ 2 ^ (k + 1) ∣ base)
    (hTurns : k < turns) :
    ∃ j, fitLoop base turns (2 ^ k) = some (2 ^ j) ∧
      Fits base size j := by
  induction turns generalizing k with
  | zero => omega
  | succ turns ih =>
      unfold fitLoop
      rw [Nat.and_two_pow_sub_one_eq_mod]
      by_cases hNot : mib ≤ 2 ^ k ∧ base % 2 ^ k ≠ 0
      · rw [if_pos hNot]
        cases k with
        | zero => exact absurd hNot.1 (by decide)
        | succ k =>
            have hHalf : 2 ^ (k + 1) >>> 1 = 2 ^ k := by
              rw [Nat.shiftRight_eq_div_pow, Nat.pow_succ,
                Nat.mul_div_cancel _ (by decide)]
            rw [hHalf]
            exact ih (Nat.le_trans (Nat.pow_le_pow_right
                (by decide) (Nat.le_succ k)) hLe)
              (fun _ hDvd =>
                hNot.2 (Nat.mod_eq_zero_of_dvd hDvd))
              (Nat.lt_of_succ_lt_succ hTurns)
      · refine ⟨k, if_neg hNot, hLe, fun hMib => ?_, hGreatest⟩
        exact Nat.dvd_of_mod_eq_zero (not_not.mp fun hSome =>
          hNot ⟨mib_le_iff.mpr hMib, hSome⟩)

/- `fit_size` ends, with the greatest size that fits. -/
theorem fitSize_fits
    {addr left : Nat}
    (hMib : mib ≤ left)
    (hBound : left < 2 ^ 32) :
    ∃ k, fitSize addr left = some (2 ^ k) ∧
      Fits addr left k := by
  rcases @pow2Loop_spec left 32 0
    hBound (Nat.le_trans (by decide) hMib) (Nat.le_refl 32) with
    ⟨k, hk, hPow, hLe, hLess⟩
  rcases @fitLoop_spec addr left 32 k hLe
    (fun hNext => absurd hNext (Nat.not_le_of_lt hLess)) hk with
    ⟨j, hFit, hFits⟩
  refine ⟨j, ?_, hFits⟩
  have hFloor : pow2Floor left = some (2 ^ k) := hPow
  rw [fitSize, hFloor]
  exact hFit

--
-- Free Pairs
--

variable {vcnt turns addr left : Nat} {s : Wc} {out : Armed}

def free (vcnt : Nat) (m : Msrs) : List Nat :=
  (List.range vcnt).filter fun i => !m.valid i

theorem valid_program
    (m : Msrs)
    (slot base len i : Nat) :
    (m.program slot base len).valid i =
      (decide (i = slot) || m.valid i) := by
  by_cases hSlot : i = slot
  · have hBit : Nat.testBit 2048 11 = true := by decide
    simp [Msrs.valid, Msrs.program, hSlot, hBit]
  · simp [Msrs.valid, Msrs.program, hSlot]

theorem free_eq_nil_iff {m : Msrs} :
    free vcnt m = [] ↔ ∀ i < vcnt, m.valid i = true := by
  simp [free]

/- The first free pair is taken, the others stay free. -/
theorem mtrrProgram_spec
    (vcnt : Nat)
    (m : Msrs)
    (base len : Nat) :
    mtrrProgram vcnt none m base len = none ∧
        free vcnt m = [] ∨
      ∃ slot, mtrrProgram vcnt none m base len =
          some (m.program slot base len, slot) ∧
        free vcnt m =
          slot :: free vcnt (m.program slot base len) := by
  unfold mtrrProgram
  rw [Option.none_or, ← List.head?_filter]
  change (free vcnt m).head?.map _ = none ∧ _ ∨
    ∃ slot, (free vcnt m).head?.map _ = _ ∧ _
  cases hFree : free vcnt m with
  | nil => exact .inl ⟨rfl, rfl⟩
  | cons slot rest =>
      refine .inr ⟨slot, rfl, congrArg _ ?_⟩
      have hNodup : (slot :: rest).Nodup :=
        hFree ▸ List.nodup_range.filter _
      have hRest : free vcnt (m.program slot base len) =
          (free vcnt m).filter (· ≠ slot) := by
        unfold free
        rw [List.filter_filter]
        refine List.filter_congr fun i _ => ?_
        rw [valid_program]
        simp
      rw [hRest, hFree, List.filter_cons_of_neg (by simp)]
      refine (List.filter_eq_self.mpr fun i hi => ?_).symm
      rw [decide_eq_true_iff]
      rintro rfl
      exact (List.nodup_cons.mp hNodup).1 hi

--
-- The Loop
--

/- The reasons for the loop to stop. -/
def Stopped
    (vcnt : Nat)
    (m : Msrs)
    (addr left : Nat) : Prop :=
  left < mib ∨ ¬ mib ∣ addr ∨ ∀ i < vcnt, m.valid i = true

/- What a run of the loop does, turn by turn. -/
inductive Arms (vcnt : Nat) :
    Nat → Wc → Nat → Nat → Armed → Prop
  | stop
      {turns : Nat}
      {s : Wc}
      {addr left : Nat}
      (hStop : Stopped vcnt s.msrs addr left) :
      Arms vcnt (turns + 1) s addr left ⟨s, [], addr, left⟩
  | block
      {turns addr left k slot : Nat}
      {s : Wc}
      {out : Armed}
      (hFree : free vcnt s.msrs =
        slot :: free vcnt (s.msrs.program slot addr (2 ^ k)))
      (hSize : fitSize addr left = some (2 ^ k))
      (hFits : Fits addr left k)
      (hMib : 20 ≤ k)
      (hRest : Arms vcnt turns
        (s.own (s.msrs.program slot addr (2 ^ k)) slot)
        ((addr + 2 ^ k) % 2 ^ 32) (left - 2 ^ k) out) :
      Arms vcnt (turns + 1) s addr left
        { out with blocks := ⟨slot, addr, 2 ^ k⟩ :: out.blocks }

/- The loop ends, as each turn takes 1 MiB or more. -/
theorem armLoop_arms
    (hBound : left < 2 ^ 32)
    (hTurns : left / mib < turns) :
    ∃ out, armLoop vcnt turns s addr left = some out ∧
      Arms vcnt turns s addr left out := by
  induction turns generalizing s addr left with
  | zero => exact absurd hTurns (Nat.not_lt_zero _)
  | succ turns ih =>
      unfold armLoop
      by_cases hLeft : mib ≤ left
      · rcases @fitSize_fits addr
          left hLeft hBound with ⟨k, hSize, hFits⟩
        rw [if_pos hLeft, hSize, Option.bind_some]
        by_cases hMib : 2 ^ k < mib
        · refine ⟨_, if_pos hMib, .stop (.inr (.inl ?_))⟩
          have hk : k + 1 ≤ 20 := by
            rw [← Nat.not_le, mib_le_iff] at hMib
            omega
          have hDvd : 2 ^ (k + 1) ∣ mib := Nat.pow_dvd_pow 2 hk
          intro hAddr
          exact hFits.greatest
            (Nat.le_trans
              (Nat.le_of_dvd (by decide) hDvd) hLeft)
            (hDvd.trans hAddr)
        · rw [if_neg hMib]
          rcases mtrrProgram_spec vcnt s.msrs addr
            (2 ^ k) with ⟨hNone, hFree⟩ | ⟨slot, hSome, hFree⟩
          · rw [hNone]
            exact ⟨_, rfl,
              .stop (.inr (.inr (free_eq_nil_iff.mp hFree)))⟩
          · have hMib := Nat.not_lt.mp hMib
            have hSub : (left + 2 ^ 32 - 2 ^ k) % 2 ^ 32 =
                left - 2 ^ k := by
              have hLe := hFits.le
              omega
            have hLess : (left - 2 ^ k) / mib < turns := by
              unfold mib at *
              omega
            rcases ih (Nat.lt_of_le_of_lt
                (Nat.sub_le _ _) hBound) hLess with
              ⟨out, hOut, hArms⟩
            rw [hSome]
            dsimp only
            rw [hSub, hOut]
            exact ⟨_, rfl, .block hFree hSize hFits
              (mib_le_iff.mp hMib) hArms⟩
      · exact ⟨_, if_neg hLeft,
          .stop (.inl (Nat.lt_of_not_le hLeft))⟩

--
-- What Is Covered
--

/- Each block starts where the one before it ends. -/
def Follows : Nat → List Block → Prop
  | _, [] => True
  | start, b :: bs =>
      b.addr = start ∧ Follows (start + b.len) bs

/- A power of two, 1 MiB or more, at a multiple of it. -/
def Block.Fit (b : Block) : Prop :=
  (∃ k, b.len = 2 ^ k) ∧ mib ≤ b.len ∧ b.len ∣ b.addr

/- The blocks cover a part of the region, from its base. -/
structure Covers
    (base size : Nat)
    (bs : List Block) : Prop where
  fit : ∀ b ∈ bs, b.Fit
  follow : Follows base bs
  apart : bs.Pairwise fun b c => b.addr + b.len ≤ c.addr
  inside : ∀ b ∈ bs,
    base ≤ b.addr ∧ b.addr + b.len ≤ base + size

/-
  There is no block past 4 GiB: none at all, no room for it,
  or no more than `n` pairs for those before it, one for each
  bit of the distance.
-/
def Stays (cursor left n : Nat) : Prop :=
  ¬ mib ∣ cursor ∨ cursor + left < 2 ^ 32 + mib ∨
    n ≤ (2 ^ 32 - cursor).bitIndices.length

theorem Arms.fit
    (hArms : Arms vcnt turns s addr left out) :
    ∀ b ∈ out.blocks, b.Fit := by
  induction hArms with
  | stop hStop => nofun
  | @block _ _ _ k _ _ _ hFree hSize hFits hMib hRest ih =>
      rintro b (_ | ⟨_, hb⟩)
      · exact ⟨⟨k, rfl⟩, mib_le_iff.mpr hMib, hFits.dvd hMib⟩
      · exact ih b hb

theorem Arms.stopped
    (hArms : Arms vcnt turns s addr left out) :
    Stopped vcnt out.state.msrs out.addr out.left := by
  induction hArms with
  | stop hStop => exact hStop
  | block hFree hSize hFits hMib hRest ih => exact ih

theorem Arms.inside
    (hArms : Arms vcnt turns s addr left out)
    {cursor : Nat}
    (hFollows : Follows cursor out.blocks) :
    (∀ b ∈ out.blocks,
      cursor ≤ b.addr ∧ b.addr + b.len ≤ cursor + left) ∧
      out.blocks.Pairwise
        fun b c => b.addr + b.len ≤ c.addr := by
  induction hArms generalizing cursor with
  | stop hStop => exact ⟨nofun, .nil⟩
  | @block _ _ _ k _ _ _ hFree hSize hFits hMib hRest ih =>
      rcases hFollows with ⟨rfl, hFollows⟩
      rcases ih hFollows with ⟨hInside, hApart⟩
      have hLe := hFits.le
      dsimp only at hInside ⊢
      constructor
      · rintro b (_ | ⟨_, hb⟩)
        · exact ⟨Nat.le_refl _, Nat.add_le_add_left hLe _⟩
        · have hIn := hInside b hb
          have hPos := Nat.two_pow_pos k
          omega
      · exact .cons (fun b hb => (hInside b hb).1) hApart

/- A block takes the lowest bit of the distance to 4 GiB. -/
theorem Fits.bits
    {k : Nat}
    (hFits : Fits addr left k)
    (hDvd : 2 ^ k ∣ 2 ^ 32 - addr)
    (hLess : addr < 2 ^ 32)
    (hFar : 2 ^ 32 ≤ addr + left) :
    (2 ^ 32 - addr).bitIndices.length =
      (2 ^ 32 - (addr + 2 ^ k)).bitIndices.length + 1 := by
  rw [Nat.sub_add_eq]
  refine bitIndices_sub hDvd fun hMore => ?_
  have hLe := Nat.le_of_dvd (by omega) hMore
  have hk : k + 1 ≤ 32 :=
    (Nat.pow_le_pow_iff_right (by decide)).mp
      (hLe.trans (Nat.sub_le _ _))
  refine hFits.greatest (by omega) ?_
  exact (Nat.dvd_sub_iff_right hLess.le
    (Nat.pow_dvd_pow 2 hk)).mp hMore

/- The blocks follow each other just as long as they stay. -/
theorem Arms.follows_iff
    (hArms : Arms vcnt turns s addr left out)
    (hBound : left < 2 ^ 32)
    {cursor : Nat}
    (hTop : cursor ≤ 2 ^ 32)
    (hAddr : addr = cursor % 2 ^ 32) :
    Follows cursor out.blocks ↔
      Stays cursor left (free vcnt s.msrs).length := by
  induction hArms generalizing cursor with
  | stop hStop =>
      refine iff_of_true trivial ?_
      rcases hStop with hFew | hNot | hUsed
      · exact .inr (.inl (by omega))
      · refine .inl fun hDvd => hNot ?_
        rw [hAddr]
        exact (Nat.dvd_mod_iff (by decide)).mpr hDvd
      · rw [free_eq_nil_iff.mpr hUsed]
        exact .inr (.inr (Nat.zero_le _))
  | @block _ addr left k _ _ _ hFree hSize hFits hMib hRest ih =>
      have hLe := hFits.le
      have hMib' := mib_le_iff.mpr hMib
      have hk : k < 32 :=
        (Nat.pow_lt_pow_iff_right (by decide)).mp
          (Nat.lt_of_le_of_lt hLe hBound)
      have hMibDvd : mib ∣ 2 ^ k := Nat.pow_dvd_pow 2 hMib
      have hPow : 2 ^ k ∣ 2 ^ 32 := Nat.pow_dvd_pow 2 hk.le
      rcases Nat.eq_or_lt_of_le hTop with rfl | hLess
      · refine iff_of_false ?_ ?_
        · rintro ⟨hEq, -⟩
          dsimp only at hEq
          omega
        · rintro (hNot | hRoom | hFew)
          · exact hNot (by decide)
          · omega
          · rw [hFree] at hFew
            simp at hFew
      · rw [Nat.mod_eq_of_lt hLess] at hAddr
        subst hAddr
        have hDvd := hFits.dvd hMib
        have hRest : 2 ^ k ∣ 2 ^ 32 - addr :=
          Nat.dvd_sub hPow hDvd
        have hNext := Nat.le_of_dvd (by omega) hRest
        have hIh := ih (by omega)
          (show addr + 2 ^ k ≤ 2 ^ 32 by omega) rfl
        dsimp only [Wc.own] at hIh
        have hSlots : (free vcnt _).length = _ + 1 :=
          congrArg List.length hFree
        have hSame : mib ∣ addr ↔ mib ∣ addr + 2 ^ k :=
          (Nat.dvd_add_left hMibDvd).symm
        change addr = addr ∧ Follows (addr + 2 ^ k) _ ↔ _
        rw [eq_self, true_and, hIh]
        unfold Stays
        rw [hSame, hSlots]
        refine or_congr_right ?_
        by_cases hFar : 2 ^ 32 + mib ≤ addr + left
        · rw [hFits.bits hRest hLess (by omega)]
          omega
        · omega

--
-- The Pairs
--

/- As many blocks as a region takes, with pairs for all. -/
def blockCount : (turns : Nat) → (addr left : Nat) → Nat
  | 0, _, _ => 0
  | turns + 1, addr, left =>
      match fitSize addr left with
      | none => 0
      | some len =>
          if len < mib then 0
          else
            blockCount turns ((addr + len) % 2 ^ 32)
              (left - len) + 1

/- The lowest free pairs are taken, and one for each block. -/
theorem Arms.slots
    (hArms : Arms vcnt turns s addr left out) :
    ∀ b ∈ out.blocks, b.slot ∈
      (free vcnt s.msrs).take (blockCount turns addr left) := by
  induction hArms with
  | stop hStop => nofun
  | block hFree hSize hFits hMib hRest ih =>
      rw [blockCount, hSize]
      dsimp only
      rw [if_neg (Nat.not_lt.mpr (mib_le_iff.mpr hMib)), hFree,
        List.take_succ_cons]
      rintro b (_ | ⟨_, hb⟩)
      · exact List.mem_cons_self
      · exact List.mem_cons_of_mem _ (ih b hb)

/- The other pairs keep what they hold. -/
theorem Arms.frame
    (hArms : Arms vcnt turns s addr left out)
    {i : Nat}
    (hOther : ∀ b ∈ out.blocks, b.slot ≠ i) :
    out.state.msrs.pair i = s.msrs.pair i := by
  induction hArms with
  | stop hStop => rfl
  | block hFree hSize hFits hMib hRest ih =>
      rw [ih fun b hb => hOther b (List.mem_cons_of_mem _ hb)]
      exact if_neg (hOther _ List.mem_cons_self).symm

/- Only the pairs of the blocks become ours. -/
theorem Arms.owned
    (hArms : Arms vcnt turns s addr left out)
    {i : Nat}
    (hOwned : out.state.owned.testBit i = true) :
    s.owned.testBit i = true ∨
      ∃ b ∈ out.blocks, b.slot % 32 = i := by
  induction hArms with
  | stop hStop => exact .inl hOwned
  | block hFree hSize hFits hMib hRest ih =>
      rcases ih hOwned with hOld | ⟨b, hb, hSlot⟩
      · rw [Wc.own, Nat.testBit_or, Nat.one_shiftLeft,
          Nat.testBit_two_pow, Bool.or_eq_true,
          decide_eq_true_iff] at hOld
        exact hOld.imp_right fun hSlot =>
          ⟨_, List.mem_cons_self, hSlot⟩
      · exact .inr ⟨b, List.mem_cons_of_mem _ hb, hSlot⟩

--
-- Calls
--

variable {cpu : Cpu} {mine : List Nat}

/- The pairs that a call finds free. -/
def Cpu.freePairs (cpu : Cpu) (s : Wc) : List Nat :=
  free cpu.vcnt (s.release cpu.vcnt).msrs

/- No block of a call is past 4 GiB. -/
def StaysBelow
    (cpu : Cpu)
    (s : Wc)
    (base size : UInt32) : Prop :=
  cpu.supports = true →
    Stays base.toNat size.toNat (cpu.freePairs s).length

/- The free pairs for the blocks have numbers below 32. -/
def LowPairs
    (cpu : Cpu)
    (s : Wc)
    (base size : UInt32) : Prop :=
  cpu.supports = true → ∀ i ∈ (cpu.freePairs s).take
    (blockCount 4096 base.toNat size.toNat), i < 32

/-
  Calls one after another from any registers, with the pairs
  that they have programmed.
-/
inductive Run (cpu : Cpu) : List Nat → Wc → Prop
  | boot
      (msrs : Msrs) :
      Run cpu [] (.boot msrs)
  | call
      {mine : List Nat}
      {s : Wc}
      {base size : UInt32}
      {o : Outcome}
      (hRun : Run cpu mine s)
      (hLow : LowPairs cpu s base size)
      (hCall : mtrrSetWc cpu s base size = some o) :
      Run cpu (mine ++ o.blocks.map (·.slot)) o.state

theorem free_release
    {i : Nat}
    (hFree : i ∈ cpu.freePairs s) :
    i ∈ s.releases cpu.vcnt ∨ s.msrs.valid i = false := by
  have hValid := (List.mem_filter.mp hFree).2
  by_cases hOurs : i ∈ s.releases cpu.vcnt
  · exact .inl hOurs
  · refine .inr ?_
    simpa [Msrs.valid, Wc.release, hOurs] using hValid

/- What the loop of a call does, when it gets there. -/
theorem mtrrSetWc_arms
    (cpu : Cpu)
    (s : Wc)
    (base size : UInt32) :
    cpu.supports = false ∧
        mtrrSetWc cpu s base size = some ⟨s, 0, [], [], none⟩ ∨
      cpu.supports = true ∧ ∃ a, Arms cpu.vcnt 4096
          (s.release cpu.vcnt) base.toNat size.toNat a ∧
        ∃ ok result, mtrrSetWc cpu s base size =
          some ⟨{ a.state with ok }, result,
            s.releases cpu.vcnt, a.blocks,
            some (a.addr, a.left)⟩ := by
  unfold mtrrSetWc
  cases cpu.supports with
  | false => exact .inl ⟨rfl, rfl⟩
  | true =>
      have hBound := size.toNat_lt
      rcases @armLoop_arms cpu.vcnt 4096
        base.toNat size.toNat (s.release cpu.vcnt) hBound
        (by unfold mib; omega) with ⟨a, hLoop, hArms⟩
      rw [if_pos rfl, hLoop]
      exact .inr ⟨rfl, a, hArms, _, _, rfl⟩

/- A pair that is noted as ours was programmed by a call. -/
theorem Run.owned
    (hRun : Run cpu mine s) :
    ∀ i, s.owned.testBit i = true → i ∈ mine := by
  induction hRun with
  | boot msrs => simp [Wc.boot]
  | @call mine s base size o hRun hLow hCall ih =>
      rcases mtrrSetWc_arms cpu s base size with
        ⟨-, hSome⟩ | ⟨hSupports, a, hArms, ok, result, hSome⟩
      · rcases Option.some.inj (hSome.symm.trans hCall) with
          rfl
        simpa using ih
      · rcases Option.some.inj (hSome.symm.trans hCall) with
          rfl
        intro i hOwned
        rcases hArms.owned hOwned with hOld | ⟨b, hb, hSlot⟩
        · simp [Wc.release] at hOld
        · have hLess := hLow hSupports _ (hArms.slots b hb)
          rw [Nat.mod_eq_of_lt hLess] at hSlot
          exact List.mem_append_right _
            (List.mem_map.mpr ⟨b, hb, hSlot⟩)

/-
  After any run, a call ends; its blocks cover the region if
  and only if they stay below 4 GiB. The loop stops for one
  of its reasons only, and no pairs are touched but those of
  calls before and free ones: all others keep their contents.
-/
theorem mtrrSetWc_spec
    (hRun : Run cpu mine s)
    (base size : UInt32) :
    ∃ o, mtrrSetWc cpu s base size = some o ∧
      (Covers base.toNat size.toNat o.blocks ↔
        StaysBelow cpu s base size) ∧
      (∀ addr left, o.stop = some (addr, left) →
        Stopped cpu.vcnt o.state.msrs addr left) ∧
      (∀ i ∈ o.released, i ∈ mine) ∧
      (∀ b ∈ o.blocks,
        b.slot ∈ mine ∨ s.msrs.valid b.slot = false) ∧
      ∀ i, i ∉ mine → s.msrs.valid i = true →
        o.state.msrs.pair i = s.msrs.pair i := by
  have hOurs : ∀ i ∈ s.releases cpu.vcnt, i ∈ mine :=
    fun i hi => hRun.owned i (List.mem_filter.mp hi).2
  rcases mtrrSetWc_arms cpu s base size with
    ⟨hNot, hSome⟩ | ⟨hSupports, a, hArms, ok, result, hSome⟩
  · refine ⟨_, hSome, iff_of_true ⟨nofun, trivial, .nil, nofun⟩
      fun hSupports => ?_, by simp, by simp, by simp,
      fun _ _ _ => rfl⟩
    exact absurd (hNot.symm.trans hSupports) (by decide)
  · have hFollows := hArms.follows_iff size.toNat_lt
      base.toNat_lt.le (Nat.mod_eq_of_lt base.toNat_lt).symm
    have hTouched : ∀ b ∈ a.blocks,
        b.slot ∈ mine ∨ s.msrs.valid b.slot = false :=
      fun b hb => (free_release (List.mem_of_mem_take
        (hArms.slots b hb))).imp_left (hOurs b.slot)
    refine ⟨_, hSome, ⟨fun hCovers _ => hFollows.mp
      hCovers.follow, fun hStays => ?_⟩, ?_, hOurs, hTouched,
      fun i hNot hUsed => ?_⟩
    · have hFollow := hFollows.mpr (hStays hSupports)
      rcases hArms.inside hFollow with ⟨hInside, hApart⟩
      exact ⟨hArms.fit, hFollow, hApart, hInside⟩
    · rintro _ _ ⟨⟩
      exact hArms.stopped
    · have hOther : ∀ b ∈ a.blocks, b.slot ≠ i := by
        rintro b hb rfl
        rcases hTouched b hb with hMine | hFree
        · exact hNot hMine
        · rw [hFree] at hUsed
          cases hUsed
      exact (hArms.frame hOther).trans
        (if_neg fun hMem => hNot (hOurs i hMem))

/-
  With two pairs, the second block is at the start of the
  memory. With 33, of which the last is free, that one is
  programmed, and the next call releases the first.
-/
theorem mtrrSetWc_wraps :
    let bs : List Block :=
      [⟨0, 0xFFF00000, 0x100000⟩, ⟨1, 0, 0x100000⟩]
    let cpu : Cpu := ⟨true, 0x1020, 0x421⟩
    let used (i : Nat) := if i < 32 then 1 <<< 11 else 0
    (mtrrSetWc ⟨true, 0x1020, 0x402⟩ (.boot ⟨0, fun _ => ⟨0, 0⟩⟩)
        0xFFF00000 0x200000).map (·.blocks) = some bs ∧
      ¬ Covers 0xFFF00000 0x200000 bs ∧
      ((mtrrSetWc cpu (.boot ⟨0, fun i => ⟨0, used i⟩⟩) 0
          0x100000).bind fun o =>
        (mtrrSetWc cpu o.state 0 0x100000).map fun o' =>
          (o.blocks.map (·.slot), o'.released)) =
        some ([32], [0]) :=
  ⟨by decide +kernel,
    fun hCovers => absurd hCovers.follow.2.1 (by decide),
    by decide +kernel⟩

/- A second call releases what the first has programmed. -/
theorem mtrrSetWc_spec_second :
    let cpu : Cpu := ⟨true, 0x1020, 0x408⟩
    let s : Wc := .boot ⟨0, fun _ => ⟨0, 0⟩⟩
    ∃ o o', mtrrSetWc cpu s 0xFD000000 0x300000 = some o ∧
      mtrrSetWc cpu o.state 0xFD000000 0x7E9000 = some o' ∧
      ∀ i ∈ o'.released, i ∈ o.blocks.map (·.slot) := by
  intro cpu s
  have hSome : (mtrrSetWc cpu s 0xFD000000
      0x300000).isSome = true := by decide +kernel
  have hLow : LowPairs cpu s 0xFD000000 0x300000 :=
    fun _ => by decide +kernel
  rcases Option.isSome_iff_exists.mp hSome with ⟨o, hCall⟩
  rcases mtrrSetWc_spec (.call (.boot _) hLow hCall)
    0xFD000000 0x7E9000 with ⟨o', hCall', -, -, hReleased, -⟩
  exact ⟨o, o', hCall, hCall', hReleased⟩

--
-- Mode Changes
--

/- The pairs in use, and those that are noted as ours. -/
theorem Arms.marks
    (hArms : Arms vcnt turns s addr left out)
    (i : Nat) :
    (out.state.msrs.valid i = true ↔
        s.msrs.valid i = true ∨ ∃ b ∈ out.blocks, b.slot = i) ∧
      (out.state.owned.testBit i = true ↔
        s.owned.testBit i = true ∨
          ∃ b ∈ out.blocks, b.slot % 32 = i) := by
  induction hArms with
  | stop hStop => simp
  | @block _ _ _ _ slot _ _ hFree hSize hFits hMib hRest ih =>
      simp only [ih, Wc.own, valid_program, Nat.testBit_or,
        Nat.one_shiftLeft, Nat.testBit_two_pow,
        Bool.or_eq_true, decide_eq_true_iff,
        List.exists_mem_cons_iff]
      constructor
      · rw [@eq_comm _ i slot, or_comm (a := slot = i), or_assoc]
      · rw [or_assoc]

theorem valid_release
    (s : Wc)
    (vcnt i : Nat) :
    (s.release vcnt).msrs.valid i =
      if i ∈ s.releases vcnt then false
      else s.msrs.valid i := by
  unfold Msrs.valid Wc.release
  dsimp only
  split <;> simp

/- A call gives the pairs it takes back to the next one. -/
theorem mtrrSetWc_freePairs
    {base size : UInt32}
    {o : Outcome}
    (hLow : LowPairs cpu s base size)
    (hCall : mtrrSetWc cpu s base size = some o) :
    cpu.freePairs o.state = cpu.freePairs s := by
  rcases mtrrSetWc_arms cpu s base size with
    ⟨-, hSome⟩ | ⟨hSupports, a, hArms, ok, result, hSome⟩
  · rcases Option.some.inj (hSome.symm.trans hCall) with rfl
    rfl
  rcases Option.some.inj (hSome.symm.trans hCall) with rfl
  refine List.filter_congr fun i hi => congrArg not ?_
  have hVcnt := List.mem_range.mp hi
  rcases hArms.marks i with ⟨hValid, hOwned⟩
  have hMine : i ∈ a.state.releases cpu.vcnt ↔
      i < 32 ∧ ∃ b ∈ a.blocks, b.slot % 32 = i := by
    rw [Wc.releases, List.mem_filter, hOwned]
    simp [Wc.release, hVcnt]
  by_cases hSlot : ∃ b ∈ a.blocks, b.slot = i
  · rcases hSlot with ⟨b, hb, rfl⟩
    have hFree := hArms.slots b hb
    have hLess := hLow hSupports _ hFree
    have hNot := (List.mem_filter.mp
      (List.mem_of_mem_take hFree)).2
    have hIn : b.slot ∈ a.state.releases cpu.vcnt :=
      hMine.mpr ⟨hLess, b, hb, Nat.mod_eq_of_lt hLess⟩
    refine (valid_release { a.state with ok } _ _).trans
      ((if_pos hIn).trans ?_)
    simpa using hNot.symm
  · have hOut : i ∉ a.state.releases cpu.vcnt := by
      rw [hMine]
      rintro ⟨-, b, hb, hMod⟩
      have hLess := hLow hSupports _ (hArms.slots b hb)
      rw [Nat.mod_eq_of_lt hLess] at hMod
      exact hSlot ⟨b, hb, hMod⟩
    refine (valid_release { a.state with ok } _ _).trans
      ((if_neg hOut).trans ?_)
    exact Bool.eq_iff_iff.mpr
      (hValid.trans (or_iff_left hSlot))

/- The blocks depend on the free pairs only. -/
theorem armLoop_blocks
    {s' : Wc}
    (hFree : free vcnt s.msrs = free vcnt s'.msrs) :
    (armLoop vcnt turns s addr left).map (·.blocks) =
      (armLoop vcnt turns s' addr left).map (·.blocks) := by
  induction turns generalizing s s' addr left with
  | zero => rfl
  | succ turns ih =>
      unfold armLoop
      split
      · cases fitSize addr left with
        | none => rfl
        | some len =>
            rw [Option.bind_some, Option.bind_some]
            split
            · rfl
            · rcases mtrrProgram_spec vcnt s.msrs addr len with
                ⟨hNone, hNil⟩ | ⟨slot, hSome, hTake⟩ <;>
              rcases mtrrProgram_spec vcnt s'.msrs addr len with
                ⟨hNone', hNil'⟩ | ⟨slot', hSome', hTake'⟩
              · rw [hNone, hNone']
                rfl
              · rw [← hFree, hNil] at hTake'
                cases hTake'
              · rw [hFree, hNil'] at hTake
                cases hTake
              · rw [hTake, hTake', List.cons.injEq] at hFree
                rcases hFree with ⟨rfl, hFree⟩
                rw [hSome, hSome']
                dsimp only
                have hRest : ∀ x y, Option.map _
                    (armLoop vcnt turns (s.own _ slot) x y) =
                  Option.map _
                    (armLoop vcnt turns (s'.own _ slot) x y) :=
                  fun x y => ih hFree
                rw [Option.map_map, Option.map_map]
                have hMore := fun x y => congrArg (Option.map
                  (⟨slot, addr, len⟩ :: ·)) (hRest x y)
                simp only [Option.map_map] at hMore
                exact hMore _ _
      · rfl

/- From one state to that after a mode change. -/
def Calls (cpu : Cpu) (s s' : Wc) : Prop :=
  ∃ base size o, LowPairs cpu s base size ∧
    mtrrSetWc cpu s base size = some o ∧ o.state = s'

/-
  After any sequence of mode changes a call programs the same
  pairs with the same blocks as it would have done at first:
  the changes do not use the registers up.
-/
theorem mtrrSetWc_again
    {msrs : Msrs}
    (hCalls : Relation.ReflTransGen (Calls cpu) (.boot msrs) s)
    (base size : UInt32) :
    cpu.freePairs s = cpu.freePairs (.boot msrs) ∧
      (mtrrSetWc cpu s base size).map (·.blocks) =
        (mtrrSetWc cpu (.boot msrs) base size).map
          (·.blocks) := by
  have hFree : cpu.freePairs s = cpu.freePairs (.boot msrs) := by
    induction hCalls with
    | refl => rfl
    | tail _ hCall ih =>
        rcases hCall with ⟨base, size, o, hLow, hSome, rfl⟩
        exact (mtrrSetWc_freePairs hLow hSome).trans ih
  refine ⟨hFree, ?_⟩
  unfold mtrrSetWc
  split
  · rw [Option.map_map, Option.map_map]
    exact armLoop_blocks hFree
  · rfl

/- All eight pairs are free for the second mode, too. -/
theorem mtrrSetWc_again_second :
    let cpu : Cpu := ⟨true, 0x1020, 0x408⟩
    let s : Wc := .boot ⟨0, fun _ => ⟨0, 0⟩⟩
    ∃ o, mtrrSetWc cpu s 0xFD000000 0x300000 = some o ∧
      o.blocks.length = 2 ∧
      cpu.freePairs o.state = cpu.freePairs s := by
  intro cpu s
  have hBlocks : (mtrrSetWc cpu s 0xFD000000 0x300000).map
      (·.blocks.length) = some 2 := by decide +kernel
  have hLow : LowPairs cpu s 0xFD000000 0x300000 :=
    fun _ => by decide +kernel
  rcases Option.map_eq_some_iff.mp hBlocks with
    ⟨o, hCall, hLength⟩
  exact ⟨o, hCall, hLength, (mtrrSetWc_again (.single
    ⟨_, _, o, hLow, hCall, rfl⟩) 0 0).1⟩

end KvantOS.Mtrr
