import LuajitRs.Jit.Chain
import LuajitRs.Jit.Opt.Dce

/-! Dead code elimination and the chains. The pass reroutes the chain of a dead instruction behind the last
marked instruction of its opcode. The chain stays in order when no instruction that is only kept for its effect
lies between the two. -/
namespace LuajitRs.Ir
open Lib.Backlink

namespace IrBuf

/-- The link of `p` leads to `r`; for 0 it is the head of the chain that does. -/
structure Precedes (b : IrBuf) (p r : ℕ) (op : IROp) : Prop where
  here : p = 0 ∨ r < p ∧ ∃ i, b.ir p = some i ∧ i.op = op
  next : op ≠ .nop → ∀ s i, r < s → s < p ∨ p = 0 → b.ir s = some i → i.op ≠ op

theorem getElem?_modify_of {α : Type*} {xs : List α} {x : α} {f : α → α} {j : ℕ} (hj : xs[j]? = some x) (i : ℕ) :
    (xs.modify j f)[i]? = if i = j then some (f x) else xs[i]? := by
  rw [List.getElem?_modify]
  by_cases hij : i = j
  · subst hij
    simp only [if_true, hj]
    rfl
  · simp only [if_neg hij, if_neg (Ne.symm hij), Option.map_eq_map, Option.map_id']

section Remove
variable {b : IrBuf} {p r : ℕ} {ins ip : IRIns}

theorem ir_eq_ins (hr : REF_BIAS ≤ r) : b.ir r = b.ins[r - REF_BIAS]? := if_pos hr

/-- The instructions after the removal of the newest of its opcode. -/
theorem ins_remove_head (hr : REF_FIRST ≤ r) (hi : b.ir r = some ins) (i : ℕ) :
    ((b.unlink 0 ins).modify r .setNop).ins[i]? = if i = r - REF_BIAS then some ins.setNop else b.ins[i]? := by
  have hj : b.ins[r - REF_BIAS]? = some ins := (ir_eq_ins ((Nat.le_succ _).trans hr)).symm.trans hi
  rw [ins_modify]
  exact getElem?_modify_of hj i

theorem ins_remove_after (hr : REF_FIRST ≤ r) (hi : b.ir r = some ins) (hp : r < p) (hip : b.ir p = some ip) (i : ℕ) :
    ((b.unlink p ins).modify r .setNop).ins[i]? =
      if i = r - REF_BIAS then some ins.setNop
      else if i = p - REF_BIAS then some { ip with prev := ins.prev } else b.ins[i]? := by
  have hlo : REF_BIAS ≤ r := (Nat.le_succ _).trans hr
  have hj : b.ins[r - REF_BIAS]? = some ins := (ir_eq_ins hlo).symm.trans hi
  have hk : b.ins[p - REF_BIAS]? = some ip := (ir_eq_ins (hlo.trans hp.le)).symm.trans hip
  have hne : r - REF_BIAS ≠ p - REF_BIAS := by omega
  have h0 : p ≠ 0 := Nat.ne_zero_of_lt hp
  have hj' : (b.unlink p ins).ins[r - REF_BIAS]? = some ins := by
    rw [unlink, if_neg h0, ins_modify, getElem?_modify_of hk, if_neg hne, hj]
  rw [ins_modify, getElem?_modify_of hj', unlink, if_neg h0, ins_modify, getElem?_modify_of hk]

/-- An instruction becomes a NOP, and what linked to it links to what it linked to. -/
theorem Chained.removeAt {b' : IrBuf} {j : ℕ} (h : b.Chained) (hj0 : j ≠ 0) (hj : b.ins[j]? = some ins)
    (hk : b'.k = b.k) (h64 : b'.k64 = b.k64) (hlen : b'.ins.length = b.ins.length)
    (hop : ∀ i : ℕ, (b'.ins[i]?).map IRIns.op = if i = j then some .nop else (b.ins[i]?).map IRIns.op)
    (hprev : ∀ op i, op.Chains → b.isOp op i = true → i ≠ j →
      b'.insPrev i = if op = ins.op ∧ latest (b.isOp op) i = some j then ins.prev else b.insPrev i)
    (hchain : ∀ op, op ≠ .nop →
      b'.chain op = if op = ins.op ∧ latest (b.isOp op) b.ins.length = some j then ins.prev else b.chain op) :
    b'.Chained := by
  have hjlen : j < b.ins.length := (List.getElem?_eq_some_iff.mp hj).1
  have hconst : ins.op.isConst = false := h.ops ins (List.mem_of_getElem? hj)
  have hisOp : ∀ op i, op ≠ .nop → b'.isOp op i = (b.isOp op i && i != j) := by
    intro op i hn
    have hany : ∀ o : Option IRIns, o.any (·.op = op) = (o.map IRIns.op).any (· = op) := by
      intro o
      cases o <;> rfl
    rw [isOp, isOp, hany, hany, hop i]
    by_cases hij : i = j
    · simp [hij, Ne.symm hn]
    · simp [hij]
  refine h.of_ins hk h64 (fun c => ?_) ?_ ?_ fun op hc => ?_
  · have hne : c.op ≠ ins.op := op_ne_of_isConst hconst
    have hnop : c.op ≠ .nop := by cases c <;> exact fun hc => by cases hc
    rw [hchain c.op hnop, if_neg fun hc => hne hc.1]
  · exact List.ne_nil_of_length_pos (hlen ▸ List.length_pos_iff.mpr h.base)
  · intro i hi
    obtain ⟨m, hm⟩ := List.mem_iff_getElem?.mp hi
    have hopm := hop m
    rw [hm, Option.map_some] at hopm
    split at hopm
    · rw [Option.some.inj hopm]
      rfl
    · obtain ⟨old, hold, heq⟩ := Option.map_eq_some_iff.mp hopm.symm
      rw [← heq]
      exact h.ops old (List.mem_of_getElem? hold)
  · have ht := h.threads op hc
    rw [hlen]
    by_cases heq : op = ins.op
    · have hpj : b.isOp op j = true := by
        rw [isOp, hj, Option.any_some, Bool.and_eq_true, bne_iff_ne, decide_eq_true_eq]
        exact ⟨hj0, heq.symm⟩
      have hinsPrev : b.insPrev j = ins.prev := by
        rw [insPrev, hj]
        rfl
      refine ht.unlink hjlen hpj (fun i _ => hisOp op i hc.1) (fun i _ hpi hij => ?_) ?_
      · rw [hprev op i hc hpi hij, hinsPrev]
        simp only [heq, true_and]
      · rw [hchain op hc.1, hinsPrev]
        simp only [heq, true_and]
    · rw [hchain op hc.1, if_neg fun h => heq h.1]
      have hpj : b.isOp op j = false := by
        rw [isOp, hj, Option.any_some, decide_eq_false (Ne.symm heq), Bool.and_false]
      have hne : ∀ i, b.isOp op i = true → i ≠ j := by
        rintro i hpi rfl
        rw [hpj] at hpi
        cases hpi
      refine ht.congr (fun i _ => ?_) fun i _ hpi => ?_
      · rw [hisOp op i hc.1]
        cases hpi : b.isOp op i with
        | true => simpa using hne i hpi
        | false => rfl
      · rw [hprev op i hc hpi (hne i hpi), if_neg fun h => heq h.1]

/-- The pass removes an instruction, and the chain goes on around it. -/
theorem Chained.remove (h : b.Chained) (hr : REF_FIRST ≤ r) (hi : b.ir r = some ins)
    (hp : b.Precedes p r ins.op) : ((b.unlink p ins).modify r .setNop).Chained := by
  have hlo : REF_BIAS ≤ r := (Nat.le_succ _).trans hr
  have hj0 : r - REF_BIAS ≠ 0 := Nat.sub_ne_zero_of_lt hr
  have hj : b.ins[r - REF_BIAS]? = some ins := (ir_eq_ins hlo).symm.trans hi
  -- Behind `r` no instruction of the opcode lies before the one that links to it.
  have hnext : ∀ op i, op.Chains → op = ins.op → r - REF_BIAS < i → REF_BIAS + i < p ∨ p = 0 →
      b.isOp op i = false := by
    intro op i hc heq hlt hip
    by_contra hpi
    obtain ⟨-, x, hx, hxop⟩ := isOp_iff.mp (Bool.eq_true_of_not_eq_false hpi)
    exact hp.next (heq ▸ hc.1) (REF_BIAS + i) x (Nat.sub_lt_iff_lt_add' hlo |>.mp hlt) hip hx (hxop.trans heq)
  have hlen : r - REF_BIAS < b.ins.length := (List.getElem?_eq_some_iff.mp hj).1
  have hpj : b.isOp ins.op (r - REF_BIAS) = true := by
    rw [isOp, hj, Option.any_some, Bool.and_eq_true, bne_iff_ne]
    exact ⟨hj0, decide_eq_true rfl⟩
  have hconst : ins.op.isConst = false := h.ops ins (List.mem_of_getElem? hj)
  cases hp.here with
  | inl h0 =>
    subst h0
    have hget := ins_remove_head hr hi
    have hunlink : b.unlink 0 ins = { b with chain := Function.update b.chain ins.op ins.prev } := if_pos rfl
    refine h.removeAt hj0 hj ?_ ?_ ?_ (fun i => ?_) (fun op i hc hpi hij => ?_) fun op hn => ?_
    · rw [k_modify, hunlink]
    · rw [k64_modify, hunlink]
    · rw [ins_modify, List.length_modify, hunlink]
    · rw [hget i]
      split <;> rfl
    · have hlast : ¬ (op = ins.op ∧ latest (b.isOp op) i = some (r - REF_BIAS)) := by
        intro hl
        have := hnext op i hc hl.1 (latest_some hl.2).1 (.inr rfl)
        rw [hpi] at this
        cases this
      rw [if_neg hlast, insPrev, insPrev, hget i, if_neg hij]
    · rw [chain_modify, hunlink]
      by_cases heq : op = ins.op
      · subst heq
        have hlatest : latest (b.isOp ins.op) b.ins.length = some (r - REF_BIAS) :=
          latest_eq_some hlen hpj fun i hlt _ => hnext _ i ⟨hn, hconst⟩ rfl hlt (.inr rfl)
        rw [if_pos ⟨rfl, hlatest⟩]
        exact Function.update_self ..
      · rw [if_neg fun h => heq h.1]
        exact Function.update_of_ne heq _ _
  | inr hlt =>
    obtain ⟨hlt, ip, hip, hipop⟩ := hlt
    have h0 : p ≠ 0 := Nat.ne_zero_of_lt hlt
    have hplo : REF_BIAS ≤ p := hlo.trans hlt.le
    have hget := ins_remove_after hr hi hlt hip
    have hkp : b.ins[p - REF_BIAS]? = some ip := (ir_eq_ins hplo).symm.trans hip
    have hjp : r - REF_BIAS < p - REF_BIAS := Nat.sub_lt_sub_right hlo hlt
    have hpp : b.isOp ins.op (p - REF_BIAS) = true := by
      rw [isOp, hkp, Option.any_some, Bool.and_eq_true, bne_iff_ne]
      exact ⟨Nat.ne_zero_of_lt hjp, decide_eq_true hipop⟩
    -- Only the entry at `p` has `r` for its predecessor.
    have hlatest : ∀ op i, op.Chains → op = ins.op → b.isOp op i = true ∨ i = b.ins.length →
        (latest (b.isOp op) i = some (r - REF_BIAS) ↔ i = p - REF_BIAS) := by
      rintro op i hc rfl hpi
      constructor
      · intro hl
        have hji := (latest_some hl).1
        rcases Nat.lt_trichotomy i (p - REF_BIAS) with hip' | heq | hip'
        · have hlt' : REF_BIAS + i < p := Nat.add_lt_of_lt_sub' hip'
          have hlen' : i ≠ b.ins.length := (hip'.trans (lt_length_of_isOp hpp)).ne
          have := hnext _ i hc rfl hji (.inl hlt')
          rw [hpi.resolve_right hlen'] at this
          cases this
        · exact heq
        · have := latest_between hl hjp hip'
          rw [hpp] at this
          cases this
      · intro hip'
        rw [hip']
        exact latest_eq_some hjp hpj fun i hi hi' => hnext _ i hc rfl hi (.inl (Nat.add_lt_of_lt_sub' hi'))
    have hunlink : b.unlink p ins = b.modify p fun i => { i with prev := ins.prev } := if_neg h0
    refine h.removeAt hj0 hj ?_ ?_ ?_ (fun i => ?_) (fun op i hc hpi hij => ?_) fun op hn => ?_
    · rw [k_modify, hunlink, k_modify]
    · rw [k64_modify, hunlink, k64_modify]
    · rw [ins_modify, List.length_modify, hunlink, ins_modify, List.length_modify]
    · rw [hget i]
      by_cases hij : i = r - REF_BIAS
      · rw [if_pos hij, if_pos hij]
        rfl
      · rw [if_neg hij, if_neg hij]
        by_cases hik : i = p - REF_BIAS
        · rw [if_pos hik, hik, hkp]
          rfl
        · rw [if_neg hik]
    · by_cases hik : i = p - REF_BIAS
      · have heq : op = ins.op := by
          rw [isOp, hik, hkp, Option.any_some, Bool.and_eq_true, decide_eq_true_eq] at hpi
          exact hpi.2.symm.trans hipop
        rw [if_pos ⟨heq, (hlatest op i hc heq (.inl hpi)).mpr hik⟩, insPrev, hget i, if_neg hij, if_pos hik]
        rfl
      · rw [if_neg fun hl => hik ((hlatest op i hc hl.1 (.inl hpi)).mp hl.2), insPrev, insPrev, hget i, if_neg hij,
          if_neg hik]
    · rw [chain_modify, hunlink, chain_modify, if_neg]
      intro hl
      have hc : op.Chains := ⟨hn, hl.1 ▸ hconst⟩
      have := (hlatest op _ hc hl.1 (.inr rfl)).mp hl.2
      exact (lt_length_of_isOp hpp).ne' this

theorem Chained.markRef (h : b.Chained) (o : ℕ) : (b.markRef o).Chained := by
  rw [IrBuf.markRef]
  split
  · exact h.modify fun _ _ => ⟨rfl, fun _ => rfl⟩
  · exact h

theorem Chained.markOperands (h : b.Chained) (ins : IRIns) : (b.markOperands ins).Chained :=
  (h.markRef ins.op1).markRef ins.op2

end Remove
end IrBuf

/-! ### The pass -/

/-- The chain neighbour above a dead instruction, where there is one, is referred to: it is not kept for its
effect alone. -/
def Trace.Relinks (tr : Trace) : Prop :=
  ∀ r q ins ins', REF_FIRST ≤ r → r < q → tr.ir.ir r = some ins → ¬ tr.Live r → ins.op ≠ .nop →
    tr.ir.ir q = some ins' → ins'.op = ins.op → tr.Live q →
    (∀ s i, r < s → s < q → tr.ir.ir s = some i → i.op = ins.op → ¬ tr.Live s) → tr.Wanted (q + 1) q ins'

section Pass
variable {tr : Trace} {buf : IrBuf} {n : ℕ} {pchain : IROp → ℕ} {ins ins' : IRIns}

/-- From `n` on, `pchain` has the last instruction of every opcode that is referred to. -/
structure Linked (tr : Trace) (n : ℕ) (pchain : IROp → ℕ) : Prop where
  here : ∀ op, pchain op = 0 ∨
    n ≤ pchain op ∧ tr.Live (pchain op) ∧ ∃ i, tr.ir.ir (pchain op) = some i ∧ i.op = op
  next : ∀ op s i, n ≤ s → s < pchain op ∨ pchain op = 0 → tr.ir.ir s = some i → i.op = op →
    ¬ tr.Wanted (s + 1) s i

theorem Linked.marked (h : Linked tr (n + 1) pchain) (hn : n ≠ 0) (hi : tr.ir.ir n = some ins) (hl : tr.Live n) :
    Linked tr n (Function.update pchain ins.op n) := by
  refine ⟨fun op => ?_, fun op s i hs hp hsi hop => ?_⟩
  · by_cases heq : op = ins.op
    · rw [heq, Function.update_self]
      exact .inr ⟨Nat.le_refl n, hl, ins, hi, rfl⟩
    · rw [Function.update_of_ne heq]
      exact (h.here op).imp_right fun h => ⟨Nat.le_of_succ_le h.1, h.2⟩
  · by_cases heq : op = ins.op
    · rw [heq, Function.update_self] at hp
      exact absurd hp (not_or.mpr ⟨Nat.not_lt.mpr hs, hn⟩)
    · rw [Function.update_of_ne heq] at hp
      have hne : s ≠ n := by
        rintro rfl
        rw [hi, Option.some.injEq] at hsi
        exact heq (hsi ▸ hop.symm)
      exact h.next op s i (Nat.lt_of_le_of_ne hs hne.symm) hp hsi hop

/-- An instruction that nothing refers to is passed over. -/
theorem Linked.skipped (h : Linked tr (n + 1) pchain) (hi : tr.ir.ir n = some ins)
    (hw : ¬ tr.Wanted (n + 1) n ins) : Linked tr n pchain := by
  refine ⟨fun op => (h.here op).imp_right fun h => ⟨Nat.le_of_succ_le h.1, h.2⟩, fun op s i hs hp hsi hop => ?_⟩
  rcases Nat.eq_or_lt_of_le hs with rfl | hlt
  · rw [hi, Option.some.injEq] at hsi
    rwa [← hsi]
  · exact h.next op s i hlt hp hsi hop

/-- The last marked instruction of the opcode is the one that links to a dead one. -/
theorem Passed.precedes (h : Passed tr (n + 1) buf pchain) (hlink : Linked tr (n + 1) pchain) (hre : tr.Relinks)
    (hlo : REF_FIRST ≤ n) (hi : tr.ir.ir n = some ins) (hl : ¬ tr.Live n) :
    buf.Precedes (pchain ins.op) n ins.op := by
  refine ⟨(hlink.here ins.op).imp_right fun hp => ?_, fun hn s i hs hp hsi hop => ?_⟩
  · obtain ⟨hlt, hlive, i, hi, hop⟩ := hp
    obtain ⟨i', hi', hsame⟩ := h.decided.live _ i hlt hi hlive
    exact ⟨hlt, i', hi', hsame.op.trans hop⟩
  · have hb : REF_BIAS ≤ s := ((Nat.le_succ _).trans hlo).trans hs.le
    have hlive : tr.Live s := by
      by_contra hdead
      exact hn (hop.symm.trans (h.decided.dead s i hs hdead hsi))
    obtain ⟨x, hx⟩ : ∃ x, tr.ir.ir s = some x := by
      have hlt := lt_nins hb hsi
      rw [IrBuf.nins, h.decided.len, ← IrBuf.nins] at hlt
      rw [IrBuf.ir, if_pos hb]
      refine ⟨_, List.getElem?_eq_getElem (Nat.sub_lt_left_of_lt_add hb hlt)⟩
    have hxop : x.op = ins.op := by
      obtain ⟨i', hi', hsame⟩ := h.decided.live s x hs hx hlive
      rw [hsi, Option.some.injEq] at hi'
      exact hsame.op.symm.trans ((congrArg IRIns.op hi').symm.trans hop)
    -- The lowest live instruction of the opcode above `n` is referred to, so the pass has met it.
    have hex : ∃ q, n < q ∧ tr.Live q ∧ ∃ i, tr.ir.ir q = some i ∧ i.op = ins.op := ⟨s, hs, hlive, x, hx, hxop⟩
    classical
    obtain ⟨hq, hqlive, iq, hqi, hqop⟩ := Nat.find_spec hex
    have hqs : Nat.find hex ≤ s := Nat.find_min' hex ⟨hs, hlive, x, hx, hxop⟩
    refine hlink.next ins.op _ iq hq (hp.imp_left hqs.trans_lt) hqi hqop ?_
    refine hre n _ ins iq hlo hq hi hl hn hqi hqop hqlive fun t i ht htq hti htop htl => ?_
    exact Nat.find_min hex htq ⟨ht, htl, i, hti, htop⟩

theorem dcePropagate_chained (hssa : tr.ir.SSA) (hre : tr.Relinks) (k : ℕ) (buf : IrBuf) (pchain : IROp → ℕ)
    (hlen : REF_FIRST + k ≤ tr.ir.nins) (h : Passed tr (REF_FIRST + k) buf pchain)
    (hlink : Linked tr (REF_FIRST + k) pchain) (hc : buf.Chained) : (buf.dcePropagate k pchain).Chained := by
  induction k generalizing buf pchain with
  | zero => exact hc
  | succ k ih =>
    have hlo : REF_FIRST ≤ REF_FIRST + k := Nat.le_add_right _ _
    have hlt : REF_FIRST + k < tr.ir.nins := hlen
    change Passed tr (REF_FIRST + k + 1) buf pchain at h
    change Linked tr (REF_FIRST + k + 1) pchain at hlink
    obtain ⟨ins, ins', hi, hi', hs, hmark, hlive⟩ := h.current hssa hlo hlt
    rw [IrBuf.dcePropagate]
    simp only [hi']
    split
    next hm =>
      have hl := hlive.mpr (.inl hm)
      have hlink' : Linked tr (REF_FIRST + k) (Function.update pchain ins'.op (REF_FIRST + k)) := by
        rw [hs.op]
        exact hlink.marked (Nat.ne_of_gt (Nat.add_pos_left (Nat.succ_pos _) k)) hi hl
      have hclear : (buf.modify (REF_FIRST + k) .clearMark).Chained := hc.modify fun _ _ => ⟨rfl, fun _ => rfl⟩
      exact ih _ _ hlt.le (h.marked hlo hi hi' hs hl) hlink' (hclear.markOperands ins')
    next hm =>
      have hskip := hlink.skipped hi fun hw => hm (hmark.mpr hw)
      split
      next hk => exact ih _ _ hlt.le (h.kept hlo hi hi' hs (hlive.mpr (.inr hk))) hskip (hc.markOperands ins')
      next hk =>
        have hl : ¬ tr.Live (REF_FIRST + k) := fun hl => not_or.mpr ⟨hm, hk⟩ (hlive.mp hl)
        refine ih _ _ hlt.le (h.dead hlo hi hi' hl hk) hskip (hc.remove hlo hi' ?_)
        rw [hs.op]
        exact h.precedes hlink hre hlo hi hl

/-- Dead code elimination keeps the chains in order where every chain neighbour of a dead instruction is
referred to. -/
theorem dceIr_chained (hssa : tr.ir.SSA) (hre : tr.Relinks) (hc : tr.ir.Chained) : tr.dceIr.Chained := by
  have hmarks : ∀ (es : List SnapEntry) (b : IrBuf), b.Chained → (es.foldl (fun b e => b.markRef e.ref) b).Chained := by
    intro es
    induction es with
    | nil => exact fun b h => h
    | cons e es ih => exact fun b h => ih _ (h.markRef e.ref)
  have hpos : REF_FIRST ≤ tr.ir.nins := Nat.add_le_add_left (List.length_pos_iff.mpr hc.base) REF_BIAS
  have hk : REF_FIRST + (tr.ir.nins - REF_FIRST) = tr.ir.nins := Nat.add_sub_cancel' hpos
  rw [Trace.dceIr]
  refine dcePropagate_chained hssa hre _ _ _ hk.le ?_ ?_ (hmarks _ _ hc)
  · rw [hk]
    exact .start
  · rw [hk]
    refine ⟨fun _ => .inl rfl, fun op s i hs _ hsi _ => ?_⟩
    have hb : REF_BIAS ≤ s := (Nat.le_add_right _ _).trans hs
    exact absurd (lt_nins hb hsi) (Nat.not_lt.mpr hs)

end Pass
end LuajitRs.Ir
