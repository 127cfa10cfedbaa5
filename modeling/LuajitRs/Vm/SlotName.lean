import LuajitRs.Compiler.Bc
import LuajitRs.Compiler.Proto
import LuajitRs.Lib.Chain

/-! The name of a register in an error message: a forward scan for the last instruction that wrote the register, which
starts over with the source of the first register copy that it meets. -/
namespace LuajitRs.SlotName
open Bc Lib.Chain

def isBranch : BCOp → Bool
  | .islt | .isge | .isle | .isgt | .iseqv | .isnev | .iseqs | .isnes | .iseqn | .isnen | .iseqp | .isnep
  | .istc | .isfc | .ist | .isf | .istype | .isnum | .isnext => true
  | _ => false

def isLoop : BCOp → Bool
  | .fori | .jfori | .forl | .iforl | .jforl | .iterl | .iiterl | .jiterl | .iterc | .itern | .loop | .iloop | .jloop => true
  | _ => false

/-- What an instruction is to the scan for a register: a step to another position, a write, or a copy into the register
from another one. -/
inductive Effect
  | skip (next : ℕ)
  | write (next : ℕ)
  | copy (src : ℕ)
  deriving DecidableEq

/-- A jump is simulated if it goes forward and not past the failing instruction. -/
def jumpTo (pc i : ℕ) (ins : BCIns) : ℕ :=
  let dest := i + 1 + bcJ ins
  if i < dest ∧ dest ≤ pc then dest.toNat else i + 1

/-- One instruction of the scan. -/
def effect (pc slot i : ℕ) (ins : BCIns) : Effect :=
  let op := bcOp ins
  let ra := bcA ins
  let wrote (b : Bool) : Effect := if b then .write (i + 1) else .skip (i + 1)
  if op = .jmp then .skip (jumpTo pc i ins)
  else if isBranch op then wrote ((if op = .istc ∨ op = .isfc then bcD ins else ra) = slot)
  else if op = .knil then wrote (ra ≤ slot ∧ slot ≤ bcD ins)
  else if isLoop op then wrote (ra ≤ slot)
  else if op.modeA = .dst ∧ ra = slot ∧ op = .mov then .copy (bcD ins)
  else wrote ((op.modeA = .dst ∧ ra = slot) ∨ (op.modeA = .base ∧ ra ≤ slot))

/-- How a scan ends: at the failing instruction with the last write, or at a copy. -/
inductive Scan
  | last (l : Option ℕ)
  | copy (src : ℕ)
  deriving DecidableEq

variable (pt : Proto)

/-- The scan from position `i`, for at most `fuel` instructions. -/
def scanFrom (pc slot : ℕ) : (fuel i : ℕ) → Option ℕ → Except Fault Scan
  | 0, _, last => .ok (.last last)
  | fuel + 1, i, last =>
    if i < pc then
      match pt.bc[i]? with
      | none => .error .outOfBounds
      | some ins =>
        match effect pc slot i ins with
        | .skip n => scanFrom pc slot fuel n last
        | .write n => scanFrom pc slot fuel n (some i)
        | .copy src => .ok (.copy src)
    else .ok (.last last)

/-- Every step goes forward, so as many instructions as lie before `pc` are enough. -/
def scan (pc slot : ℕ) : Except Fault Scan := scanFrom pt pc slot pc 1 none

/-- The name of the local variable in a register, from the debug information. -/
def debugVarname (pc slot : ℕ) : Option String :=
  (pt.varnames.find? fun v => v.1.toNat = slot ∧ v.2.1.toNat ≤ pc ∧ pc ≤ v.2.2.1.toNat).map fun v => v.2.2.2

/-- The text of a string constant; `str` reads a string as text. -/
def kstr (str : LuaValue → Option String) (idx : ℕ) : String := (pt.kstrv[idx]?.bind str).getD "?"

def uvname (idx : ℕ) : String := (pt.uvnames[idx]?).getD "?"

/-- The kind and the name of what the last write put into the register. -/
def lastName (str : LuaValue → Option String) (li : ℕ) : Option (String × String) :=
  let ins := pt.bc.getD li 0
  match bcOp ins with
  | .gget => some ("global", kstr pt str (bcD ins))
  | .tgets =>
    let insp := pt.bc.getD (li - 1) 0
    if 1 < li ∧ bcOp insp = .mov ∧ bcA insp = bcA ins + 2 ∧ bcD insp = bcB ins then
      some ("method", kstr pt str (bcC ins))
    else some ("field", kstr pt str (bcC ins))
  | .uget => some ("upvalue", uvname pt (bcD ins))
  | _ => none

/-- `debug_slotname`, for at most `fuel` rounds of its outer loop. -/
def debugSlotname (str : LuaValue → Option String) (pc : ℕ) : (fuel slot : ℕ) → Except Fault (Option (String × String))
  | 0, _ => .error .diverge
  | fuel + 1, slot =>
    match debugVarname pt pc slot with
    | some n => .ok (some ("local", n))
    | none =>
      match scan pt pc slot with
      | .error f => .error f
      | .ok (.copy src) => debugSlotname str pc fuel src
      | .ok (.last l) => .ok (l.bind (lastName pt str))

/-- The function returns: some number of rounds is enough. -/
def Returns (str : LuaValue → Option String) (pc slot : ℕ) : Prop := ∃ fuel r, debugSlotname pt str pc fuel slot = .ok r

/-! ### The copies that are followed -/

/-- The position after `i` on the path of the scan. -/
def nextPos (pc i : ℕ) : Option ℕ :=
  if i < pc then (pt.bc[i]?).map fun ins => if bcOp ins = .jmp then jumpTo pc i ins else i + 1 else none

/-- The scan visits `i`. -/
def Visits (pc i : ℕ) : Prop := Reach (nextPos pt pc) 1 i

/-- The instruction at `i` copies another register into `slot`. -/
def CopiesAt (slot i src : ℕ) : Prop := ∃ ins, pt.bc[i]? = some ins ∧ bcOp ins = .mov ∧ bcA ins = slot ∧ bcD ins = src

/-- The first copy into `slot` on the path before `pc` is from `src`. -/
def FirstCopy (pc slot src : ℕ) : Prop :=
  ∃ i, Visits pt pc i ∧ i < pc ∧ CopiesAt pt slot i src ∧ ∀ j, Visits pt pc j → j < i → ∀ s, ¬ CopiesAt pt slot j s

/-- At `pc` no local variable lives in `slot`, so that the scan goes on with the source of the first copy into it. -/
def Copied (pc slot src : ℕ) : Prop := debugVarname pt pc slot = none ∧ FirstCopy pt pc slot src

/-- The copies that lead on from `slot` do not come back to a register. -/
def NoCopyCycle (pc slot : ℕ) : Prop :=
  ∀ r r', Relation.ReflTransGen (Copied pt pc) slot r → Copied pt pc r r' → ¬ Relation.ReflTransGen (Copied pt pc) r' r

section
variable {pt} {pc slot i src : ℕ}

theorem lt_jumpTo (ins : BCIns) : i < jumpTo pc i ins := by
  unfold jumpTo
  dsimp only
  split <;> omega

theorem lt_nextPos {n : ℕ} (h : nextPos pt pc i = some n) : i < n := by
  unfold nextPos at h
  split at h
  · obtain ⟨ins, _, rfl⟩ := Option.map_eq_some_iff.mp h
    split
    · exact lt_jumpTo ins
    · omega
  · cases h

theorem le_of_reach {j : ℕ} (h : Reach (nextPos pt pc) i j) : i ≤ j := by
  induction h with
  | refl => exact le_rfl
  | tail _ hlink ih =>
    have := lt_nextPos hlink
    omega

/-- Between two neighbours of the path there is no third position. -/
theorem visits_le {j n : ℕ} (hi : Visits pt pc i) (hn : nextPos pt pc i = some n) (hj : Visits pt pc j) (h : j < n) :
    j ≤ i := by
  rcases Reach.total hi hj with hij | hji
  · rcases reach_iff_head.mp hij with rfl | ⟨m, hm, hmj⟩
    · exact le_rfl
    · have := le_of_reach hmj
      rw [Option.some.inj (hn.symm.trans hm)] at h
      omega
  · exact le_of_reach hji

/-- An instruction copies into the register, or the scan goes on at the next position of the path. -/
theorem effect_cases (pc slot i : ℕ) (ins : BCIns) :
    (bcOp ins = .mov ∧ bcA ins = slot ∧ effect pc slot i ins = .copy (bcD ins)) ∨
    (¬ (bcOp ins = .mov ∧ bcA ins = slot) ∧ ∃ n, n = (if bcOp ins = .jmp then jumpTo pc i ins else i + 1) ∧
      (effect pc slot i ins = .skip n ∨ effect pc slot i ins = .write n)) := by
  have hwrote (b : Bool) : (if b then Effect.write (i + 1) else .skip (i + 1)) = .skip (i + 1) ∨
      (if b then Effect.write (i + 1) else .skip (i + 1)) = .write (i + 1) := by cases b <;> simp
  by_cases hmov : bcOp ins = .mov ∧ bcA ins = slot
  · refine .inl ⟨hmov.1, hmov.2, ?_⟩
    simp [effect, hmov.1, hmov.2, isBranch, isLoop, BCOp.modeA]
  · refine .inr ⟨hmov, _, rfl, ?_⟩
    by_cases hjmp : bcOp ins = .jmp
    · simp [effect, hjmp]
    · have hno : ¬ ((bcOp ins).modeA = .dst ∧ bcA ins = slot ∧ bcOp ins = .mov) := fun h => hmov ⟨h.2.2, h.2.1⟩
      simp only [effect, if_neg hjmp, if_neg hno]
      split
      · exact hwrote _
      · split
        · exact hwrote _
        · split <;> exact hwrote _

theorem nextPos_eq {ins : BCIns} (hi : i < pc) (hins : pt.bc[i]? = some ins) :
    nextPos pt pc i = some (if bcOp ins = .jmp then jumpTo pc i ins else i + 1) := by
  rw [nextPos, if_pos hi, hins]
  rfl

/-- From a position of the path with no copy before it the loop finds the first copy. -/
theorem scanFrom_copy {fuel : ℕ} {last : Option ℕ} (hi : Visits pt pc i)
    (hb : ∀ j, Visits pt pc j → j < i → ∀ s, ¬ CopiesAt pt slot j s) (hf : pc ≤ i + fuel) :
    scanFrom pt pc slot fuel i last = .ok (.copy src) ↔ FirstCopy pt pc slot src := by
  have hend (hpc : pc ≤ i) : ¬ FirstCopy pt pc slot src := by
    rintro ⟨k, hk, hkpc, hcopy, _⟩
    exact hb k hk (by omega) src hcopy
  induction fuel generalizing i last with
  | zero => exact iff_of_false (by simp [scanFrom]) (hend (by omega))
  | succ fuel ih =>
    rw [scanFrom]
    by_cases hpc : i < pc
    · rw [if_pos hpc]
      cases hins : pt.bc[i]? with
      | none =>
        refine iff_of_false (by simp) ?_
        rintro ⟨k, hk, hkpc, hcopy, _⟩
        rcases Reach.total hi hk with hik | hki
        · rcases reach_iff_head.mp hik with rfl | ⟨m, hm, _⟩
          · obtain ⟨ins, h, _⟩ := hcopy
            simp [hins] at h
          · simp [nextPos, hpc, hins] at hm
        · rcases (le_of_reach hki).lt_or_eq with h | rfl
          · exact hb k hk h src hcopy
          · obtain ⟨ins, h, _⟩ := hcopy
            simp [hins] at h
      | some ins =>
        rcases effect_cases pc slot i ins with ⟨hop, ha, heff⟩ | ⟨hno, n, hn, heff⟩
        · have hcopy : CopiesAt pt slot i (bcD ins) := ⟨ins, hins, hop, ha, rfl⟩
          simp only [heff, Except.ok.injEq, Scan.copy.injEq]
          constructor
          · rintro rfl
            exact ⟨i, hi, hpc, hcopy, hb⟩
          · rintro ⟨k, hk, _, ⟨ins', hins', _, _, hsrc⟩, hfirst⟩
            have hki : k = i := by
              by_contra hne
              rcases Nat.lt_or_gt_of_ne hne with h | h
              · exact hb k hk h src ⟨ins', hins', by assumption, by assumption, hsrc⟩
              · exact hfirst i hi h _ hcopy
            subst hki
            rw [hins, Option.some.injEq] at hins'
            rw [hins', hsrc]
        · have hnext : nextPos pt pc i = some n := by rw [nextPos_eq hpc hins, hn]
          have hvis : Visits pt pc n := Reach.tail hi hnext
          have hlt := lt_nextPos hnext
          have hbn : ∀ j, Visits pt pc j → j < n → ∀ s, ¬ CopiesAt pt slot j s := by
            intro j hj hjn s hs
            rcases (visits_le hi hnext hj hjn).lt_or_eq with h | rfl
            · exact hb j hj h s hs
            · obtain ⟨ins', hins', hop, ha, _⟩ := hs
              rw [hins, Option.some.injEq] at hins'
              exact hno (by rw [hins']; exact ⟨hop, ha⟩)
          have hendn (hpcn : pc ≤ n) : ¬ FirstCopy pt pc slot src := by
            rintro ⟨k, hk, hkpc, hcopy, _⟩
            exact hbn k hk (by omega) src hcopy
          dsimp only
          rcases heff with heff | heff <;> rw [heff] <;> exact ih hvis hbn (by omega) hendn
    · rw [if_neg hpc]
      exact iff_of_false (by simp) (hend (by omega))

theorem scan_copy : scan pt pc slot = .ok (.copy src) ↔ FirstCopy pt pc slot src := by
  refine scanFrom_copy (.refl 1) ?_ (by omega)
  intro j hj hlt
  have := le_of_reach hj
  omega

theorem scanFrom_ok {fuel : ℕ} {last : Option ℕ} (hpc : pc ≤ pt.bc.length) :
    ∃ r, scanFrom pt pc slot fuel i last = .ok r := by
  induction fuel generalizing i last with
  | zero => exact ⟨_, rfl⟩
  | succ fuel ih =>
    rw [scanFrom]
    split
    · rw [List.getElem?_eq_getElem (by omega)]
      dsimp only
      split
      · exact ih
      · exact ih
      · exact ⟨_, rfl⟩
    · exact ⟨_, rfl⟩

/-! ### Termination -/

variable (pt pc) in
/-- The register with which the function starts over, if it does. -/
def restart (slot : ℕ) : Option ℕ :=
  match debugVarname pt pc slot, scan pt pc slot with
  | none, .ok (.copy src) => some src
  | _, _ => none

theorem restart_eq_some : restart pt pc slot = some src ↔ Copied pt pc slot src := by
  rw [Copied, ← scan_copy]
  unfold restart
  split
  · next hname hscan => simp [hname, hscan]
  · next hne =>
    simp only [reduceCtorEq, false_iff, not_and]
    exact fun hname hscan => hne src hname hscan

theorem link_restart : Link (restart pt pc) = Copied pt pc := by
  ext a b
  exact restart_eq_some

theorem restart_lt (h : restart pt pc slot = some src) : src < 2^16 := by
  obtain ⟨_, i, _, _, ⟨ins, _, _, _, hsrc⟩, _⟩ := restart_eq_some.mp h
  rw [← hsrc]
  exact bcD_lt ins

/-- A round that does not start over returns, and one that does goes on with the other register. -/
theorem debugSlotname_succ (str : LuaValue → Option String) (hpc : pc ≤ pt.bc.length) (fuel slot : ℕ) :
    match restart pt pc slot with
    | some src => debugSlotname pt str pc (fuel + 1) slot = debugSlotname pt str pc fuel src
    | none => ∃ r, debugSlotname pt str pc (fuel + 1) slot = .ok r := by
  have hok : ∃ r, scan pt pc slot = .ok r := scanFrom_ok hpc
  obtain ⟨r, hscan⟩ := hok
  rw [restart, debugSlotname, hscan]
  cases debugVarname pt pc slot with
  | some n => exact ⟨_, rfl⟩
  | none =>
    cases r with
    | last l => exact ⟨_, rfl⟩
    | copy src => rfl

theorem returns_iff_end (str : LuaValue → Option String) (hpc : pc ≤ pt.bc.length) :
    Returns pt str pc slot ↔ ∃ b, Reach (restart pt pc) slot b ∧ restart pt pc b = none := by
  constructor
  · rintro ⟨fuel, r, hr⟩
    induction fuel generalizing slot with
    | zero => simp [debugSlotname] at hr
    | succ fuel ih =>
      have hround := debugSlotname_succ str hpc fuel slot
      cases hnext : restart pt pc slot with
      | none => exact ⟨slot, .refl slot, hnext⟩
      | some src =>
        rw [hnext] at hround
        obtain ⟨b, hb, hend⟩ := ih (hround.symm.trans hr)
        exact ⟨b, .head hnext hb, hend⟩
  · rintro ⟨b, hb, hend⟩
    induction hb using Relation.ReflTransGen.head_induction_on with
    | refl =>
      have hround := debugSlotname_succ str hpc 0 b
      rw [hend] at hround
      exact ⟨1, hround⟩
    | @head a c hlink _ ih =>
      obtain ⟨fuel, r, hr⟩ := ih
      have hnext : restart pt pc a = some c := hlink
      have hround := debugSlotname_succ str hpc fuel a
      rw [hnext] at hround
      exact ⟨fuel + 1, r, hround.trans hr⟩

/-- The function returns exactly where the copies that it follows do not come back to a register. -/
theorem debugSlotname_returns (str : LuaValue → Option String) (hpc : pc ≤ pt.bc.length) :
    Returns pt str pc slot ↔ NoCopyCycle pt pc slot := by
  have hclosed : ∀ a ∈ insert slot (Finset.range (2^16)), ∀ b, restart pt pc a = some b →
      b ∈ insert slot (Finset.range (2^16)) := fun a _ b hb =>
    Finset.mem_insert_of_mem (Finset.mem_range.mpr (restart_lt hb))
  rw [returns_iff_end str hpc, exists_end_iff _ hclosed (Finset.mem_insert_self _ _), NoCopyCycle, ← link_restart]
  exact ⟨fun h r r' hr hlink => h r r' hr hlink, fun h r r' hr hlink => h r r' hr hlink⟩

end

/-! ### A swap of two variables -/

/-- The code of `do local a, b = 1, 2 a, b = b, a end return g.x.y`, whose variables are gone at the accesses. -/
def swapped : Proto where
  bc := [bcinsAd .funcv 3 0, bcinsAd .kshort 0 1, bcinsAd .kshort 1 2, bcinsAd .mov 2 1, bcinsAd .mov 1 0,
    bcinsAd .mov 0 2, bcinsAd .gget 0 0, bcinsAbc .tgets 0 0 1, bcinsAbc .tgets 0 0 2, bcinsAd .ret1 0 2]
  lines := List.replicate 10 1
  kgc := [.str [103], .str [120], .str [121]]
  kn := []
  kstrv := [.str 0, .str 1, .str 2]
  uv := []
  uvnames := []
  varnames := [(0, 3, 6, "a"), (1, 3, 6, "b")]
  flags := 2
  numparams := 0
  framesize := 3
  firstline := 0
  numline := 1
  source := none

theorem restart_swapped : restart swapped 8 0 = some 2 ∧ restart swapped 8 2 = some 1 ∧ restart swapped 8 1 = some 0 := by
  decide

/-- The error of the last access, whose object is in register 0, asks for a name for ever. -/
theorem swapped_hangs : ¬ ∀ (pt : Proto) (str : LuaValue → Option String) (pc slot : ℕ), pc ≤ pt.bc.length →
    Returns pt str pc slot := by
  intro h
  obtain ⟨b, hb, hend⟩ := (returns_iff_end _ (by decide)).mp (h swapped (fun _ => none) 8 0 (by decide))
  have hcycle : b = 0 ∨ b = 2 ∨ b = 1 := by
    clear hend
    induction hb with
    | refl => exact .inl rfl
    | tail _ hlink ih =>
      obtain ⟨h0, h2, h1⟩ := restart_swapped
      rcases ih with rfl | rfl | rfl
      · exact .inr (.inl (Option.some.inj (hlink.symm.trans h0)))
      · exact .inr (.inr (Option.some.inj (hlink.symm.trans h2)))
      · exact .inl (Option.some.inj (hlink.symm.trans h1))
  obtain ⟨h0, h2, h1⟩ := restart_swapped
  rcases hcycle with rfl | rfl | rfl <;> simp_all

/-- Inside the scope of the variables the names are there. -/
theorem swapped_returns : NoCopyCycle swapped 5 0 :=
  (debugSlotname_returns (fun _ => none) (by decide)).mp ⟨1, some ("local", "a"), by rfl⟩

end LuajitRs.SlotName
