import LuajitRs.Jit.Concat
import LuajitRs.Jit.Frame
import Mathlib.Data.Nat.Digits.Defs

/-! When restored slots are exact. A run with markers goes along with a run with strings as long as only `BUFHDR`
reads the markers; an exit then restores what the slots stood for at its snapshot exactly when one of them at most
has the marker, and stands for what is in the buffer. -/
namespace LuajitRs.Ir

/-! ### Writing a list of slots -/

/-- Writing values to distinct places. -/
def writeAll {α : Type} (s : ℕ → α) (l : List (ℕ × α)) : ℕ → α := l.foldl (fun s p => Function.update s p.1 p.2) s

section Write
variable {α : Type} {s : ℕ → α} {ks : List ℕ} {vs vs' : List α} {k : ℕ}

theorem writeAll_of_notMem {l : List (ℕ × α)} (h : k ∉ l.map Prod.fst) : writeAll s l k = s k := by
  induction l generalizing s with
  | nil => rfl
  | cons p l ih =>
    rw [List.map_cons, List.mem_cons, not_or] at h
    rw [writeAll, List.foldl_cons]
    exact (ih h.2).trans (Function.update_of_ne h.1 _ _)

theorem writeAll_inj (hk : ks.Nodup) (hlen : vs.length = ks.length) (hlen' : vs'.length = ks.length)
    (h : writeAll s (ks.zip vs) = writeAll s (ks.zip vs')) : vs = vs' := by
  induction ks generalizing s vs vs' with
  | nil => rw [List.length_eq_zero_iff.mp hlen, List.length_eq_zero_iff.mp hlen']
  | cons k ks ih =>
    obtain ⟨hnot, hk⟩ := List.nodup_cons.mp hk
    cases vs with
    | nil => cases hlen
    | cons v vs =>
      cases vs' with
      | nil => cases hlen'
      | cons v' vs' =>
        rw [List.zip_cons_cons, List.zip_cons_cons, writeAll, writeAll, List.foldl_cons, List.foldl_cons] at h
        have hfirst : ∀ (w : α) (ws : List α), writeAll (Function.update s k w) (ks.zip ws) k = w := by
          intro w ws
          rw [writeAll_of_notMem fun hm => hnot ?_, Function.update_self]
          obtain ⟨p, hp, rfl⟩ := List.mem_map.mp hm
          exact (List.of_mem_zip hp).1
        have hv : v = v' := by
          rw [← hfirst v vs, ← hfirst v' vs']
          exact congrFun h k
        subst hv
        rw [ih hk (Nat.succ.inj hlen) (Nat.succ.inj hlen') h]

end Write

/-! ### Restored values -/

section Values
variable {Q : Strings} {buf : List UInt8} {vs vs' : List LuaValue}

theorem length_restoredValues (buf : List UInt8) (vs : List LuaValue) :
    (restoredValues Q buf vs).length = vs.length := by
  induction vs generalizing buf with
  | nil => rfl
  | cons v vs ih =>
    rw [restoredValues]
    split <;> rw [List.length_cons, List.length_cons, ih]

/-- The word of a value: the value itself, or the marker for a string. -/
def Marks (v v' : LuaValue) : Prop := v' = v ∨ v = LuaValue.BUF_MARK ∧ ∃ a, v' = .str a

theorem flushExact_cons_mark {v' : LuaValue} :
    FlushExact Q buf (LuaValue.BUF_MARK :: vs) (v' :: vs') ↔ v' = Q.str buf ∧ FlushExact Q [] vs vs' := by
  have hf : ((LuaValue.BUF_MARK :: vs).zip (v' :: vs')).filter (fun p => p.1 = LuaValue.BUF_MARK) =
      (LuaValue.BUF_MARK, v') :: (vs.zip vs').filter (fun p => p.1 = LuaValue.BUF_MARK) := by simp
  rw [FlushExact, hf, List.map_cons]
  refine ⟨fun h => ⟨h 0 v' rfl, fun i v hv => ?_⟩, fun h i v hv => ?_⟩
  · have hrest := h (i + 1) v hv
    rw [hrest, if_neg (Nat.succ_ne_zero i), ite_self]
  · cases i with
    | zero =>
      rw [← Option.some.inj hv, h.1]
      rfl
    | succ i =>
      rw [h.2 i v hv, ite_self, if_neg (Nat.succ_ne_zero i)]

theorem flushExact_cons {v v' : LuaValue} (hv : v ≠ LuaValue.BUF_MARK) :
    FlushExact Q buf (v :: vs) (v' :: vs') ↔ FlushExact Q buf vs vs' := by
  have hf : ((v :: vs).zip (v' :: vs')).filter (fun p => p.1 = LuaValue.BUF_MARK) =
      (vs.zip vs').filter (fun p => p.1 = LuaValue.BUF_MARK) := by simp [hv]
  rw [FlushExact, hf, FlushExact]

/-- What is restored is what the words stand for. -/
theorem restoredValues_eq_iff (h : List.Forall₂ Marks vs vs') : restoredValues Q buf vs = vs' ↔ FlushExact Q buf vs vs' := by
  induction h generalizing buf with
  | nil => exact iff_of_true rfl fun i v hv => nomatch hv
  | @cons v v' vs vs' hv _ ih =>
    rw [restoredValues]
    split
    · next hm =>
      subst hm
      rw [flushExact_cons_mark, List.cons.injEq, ih, eq_comm (a := v')]
    · next hm =>
      rw [flushExact_cons hm, List.cons.injEq, ih]
      refine and_iff_right ?_
      cases hv with
      | inl heq => exact heq.symm
      | inr hmark => exact absurd hmark.1 hm

end Values

/-! ### Restoring a snapshot -/

section Restore
variable {H : Type} {Q : Strings} {R : Runtime H} {tr : Trace} {env : ℕ → LuaValue} {base : ℕ}
  {es : List SnapEntry}

def stackSlots (base : ℕ) (es : List SnapEntry) : List ℕ := (toRestore es).map fun sn => base + sn.slot - 2

/-- The restored world, where the slots get `vals` and the buffer is left as `buf`. -/
def restored (w : World (Buffered H)) (base : ℕ) (es : List SnapEntry) (vals : List LuaValue) (buf : List UInt8) :
    World (Buffered H) :=
  { w with stack := writeAll w.stack ((stackSlots base es).zip vals), rest := (w.rest.1, buf) }

/-- Restoring with a buffer, or without one where every word is restored as it is. -/
theorem restore_cons {R' : Runtime (Buffered H)} (sn : SnapEntry) (w : World (Buffered H)) :
    (sn :: es).foldlM (tr.restoreEntry R' env base) w =
      if sn.norestore then es.foldlM (tr.restoreEntry R' env base) w
      else (readRef tr.ir env sn.ref).bind fun v =>
        let p := if v = LuaValue.BUF_MARK then R'.bufStr w.rest else (w.rest, v)
        es.foldlM (tr.restoreEntry R' env base)
          { w with stack := Function.update w.stack (base + sn.slot - 2) p.2, rest := p.1 } := by
  rw [List.foldlM_cons, Trace.restoreEntry]
  cases sn.norestore with
  | true => rfl
  | false =>
    rw [if_neg (by decide), if_neg (by decide)]
    cases readRef tr.ir env sn.ref <;> rfl

theorem words_cons (sn : SnapEntry) : tr.words env (sn :: es) =
    if sn.norestore then tr.words env es
    else (readRef tr.ir env sn.ref).bind fun v => (tr.words env es).map (v :: ·) := by
  rw [Trace.words, toRestore]
  cases hn : sn.norestore with
  | true =>
    rw [List.filter_cons_of_neg (by simp [hn]), if_pos rfl]
    rfl
  | false =>
    rw [List.filter_cons_of_pos (by simp [hn]), List.mapM_cons, if_neg (by decide)]
    refine congrArg _ (funext fun v => ?_)
    rw [Trace.words, toRestore]
    cases (es.filter fun sn => !sn.norestore).mapM fun sn => readRef tr.ir env sn.ref <;> rfl

theorem stackSlots_cons (sn : SnapEntry) : stackSlots base (sn :: es) =
    if sn.norestore then stackSlots base es else (base + sn.slot - 2) :: stackSlots base es := by
  rw [stackSlots, toRestore]
  cases hn : sn.norestore with
  | true =>
    rw [List.filter_cons_of_neg (by simp [hn]), if_pos rfl]
    rfl
  | false =>
    rw [List.filter_cons_of_pos (by simp [hn]), if_neg (by decide)]
    rfl

theorem restore_withBuffer (w : World (Buffered H)) :
    es.foldlM (tr.restoreEntry (R.withBuffer Q) env base) w = (tr.words env es).map fun vs =>
      restored w base es (restoredValues Q w.rest.2 vs) (if LuaValue.BUF_MARK ∈ vs then [] else w.rest.2) := by
  induction es generalizing w with
  | nil => rfl
  | cons sn es ih =>
    simp only [restore_cons, words_cons, restored, stackSlots_cons] at ih ⊢
    cases sn.norestore with
    | true =>
      rw [if_pos rfl, if_pos rfl, if_pos rfl]
      exact ih w
    | false =>
      rw [if_neg (by decide), if_neg (by decide), if_neg (by decide)]
      cases readRef tr.ir env sn.ref with
      | none => rfl
      | some v =>
        simp only [Option.bind_some, ih, Option.map_map]
        cases tr.words env es with
        | none => rfl
        | some vs =>
          by_cases hm : v = LuaValue.BUF_MARK
          · subst hm
            simp [restoredValues, Runtime.withBuffer, writeAll]
          · have hm' : ¬ LuaValue.BUF_MARK = v := fun h => hm h.symm
            simp [restoredValues, hm, hm', writeAll]

theorem restore_withoutBuffer (w : World (Buffered H)) :
    es.foldlM (tr.restoreEntry (R.withoutBuffer Q) env base) w =
      (tr.words env es).map fun vs => restored w base es vs w.rest.2 := by
  induction es generalizing w with
  | nil => rfl
  | cons sn es ih =>
    simp only [restore_cons, words_cons, restored, stackSlots_cons] at ih ⊢
    cases sn.norestore with
    | true =>
      rw [if_pos rfl, if_pos rfl, if_pos rfl]
      exact ih w
    | false =>
      rw [if_neg (by decide), if_neg (by decide), if_neg (by decide)]
      cases readRef tr.ir env sn.ref with
      | none => rfl
      | some v =>
        have hsame : (if v = LuaValue.BUF_MARK then (R.withoutBuffer Q).bufStr w.rest else (w.rest, v)) = (w.rest, v) := by
          by_cases hm : v = LuaValue.BUF_MARK
          · rw [if_pos hm, hm]
            rfl
          · rw [if_neg hm]
        simp only [Option.bind_some, hsame, ih, Option.map_map]
        cases tr.words env es with
        | none => rfl
        | some vs => rfl

end Restore

/-! ### What an instruction changes -/

section Frame
variable {H : Type} {R : Runtime H} {buf : IrBuf} {m : Machine H} {ins : IRIns} {e : Effect H}

/-- No instruction writes a stack slot, and few change the rest of the runtime. -/
theorem evalIns_frame (h : evalIns R buf m ins = some e) : ∃ tables rest, e.world = ⟨m.world.stack, tables, rest⟩ ∧
    (rest = m.world.rest ∨ (∃ idx args, rest = (R.call idx args m.world).1) ∨
      (∃ x y, rest = (R.cnew x y m.world.rest).1) ∨
      e.leave = false ∧ (ins.op = .bufhdr ∨ ins.op = .bufput ∨ ins.op = .bufstr)) := by
  have hsame : ∀ w : World H, w = m.world → ∃ tables rest, w = ⟨m.world.stack, tables, rest⟩ ∧
      rest = m.world.rest := fun w hw => ⟨m.world.tables, m.world.rest, hw, rfl⟩
  have hstore : ∀ (w : World H) a t, w = m.world.setTable a t → ∃ tables rest,
      w = ⟨m.world.stack, tables, rest⟩ ∧ rest = m.world.rest := fun w a t hw => ⟨_, m.world.rest, hw, rfl⟩
  suffices hcases : (∃ tables rest, e.world = ⟨m.world.stack, tables, rest⟩ ∧ rest = m.world.rest) ∨
      (∃ idx args, e.world = { m.world with rest := (R.call idx args m.world).1 }) ∨
      (∃ x y, e.world = { m.world with rest := (R.cnew x y m.world.rest).1 }) ∨
      (e.leave = false ∧ (ins.op = .bufhdr ∨ ins.op = .bufput ∨ ins.op = .bufstr) ∧
        ∃ rest, e.world = { m.world with rest := rest }) by
    rcases hcases with ⟨tables, rest, hw, hr⟩ | ⟨idx, args, hw⟩ | ⟨x, y, hw⟩ | ⟨hl, hop, rest, hw⟩
    · exact ⟨tables, rest, hw, .inl hr⟩
    · exact ⟨m.world.tables, _, hw, .inr (.inl ⟨idx, args, rfl⟩)⟩
    · exact ⟨m.world.tables, _, hw, .inr (.inr (.inl ⟨x, y, rfl⟩))⟩
    · exact ⟨m.world.tables, rest, hw, .inr (.inr (.inr ⟨hl, hop⟩))⟩
  have hbuf : ∀ start v, e = evalBuf R m start v → (ins.op = .bufhdr ∨ ins.op = .bufput ∨ ins.op = .bufstr) →
      (∃ tables rest, e.world = ⟨m.world.stack, tables, rest⟩ ∧ rest = m.world.rest) ∨
      (e.leave = false ∧ (ins.op = .bufhdr ∨ ins.op = .bufput ∨ ins.op = .bufstr) ∧
        ∃ rest, e.world = { m.world with rest := rest }) := by
    intro start v he hop
    rw [evalBuf] at he
    split at he
    · subst he
      exact .inl (hsame _ rfl)
    · split at he
      · subst he
        exact .inr ⟨rfl, hop, _, rfl⟩
      · subst he
        exact .inl (hsame _ rfl)
  rcases ins with ⟨op, t, op1, op2, prev⟩
  cases op
  all_goals first | (cases h; done) | skip
  all_goals
    simp only [evalIns, Option.bind_eq_bind, Option.bind_eq_some_iff, Option.pure_def, Option.some.injEq] at h
  case bufhdr =>
    obtain ⟨v, -, rfl⟩ := h
    exact (hbuf true v rfl (.inl rfl)).imp id fun h => .inr (.inr h)
  case bufput =>
    obtain ⟨v, -, rfl⟩ := h
    exact (hbuf false v rfl (.inr (.inl rfl))).imp id fun h => .inr (.inr h)
  case bufstr =>
    subst h
    exact .inr (.inr (.inr ⟨rfl, .inr (.inr rfl), _, rfl⟩))
  case calll =>
    obtain ⟨args, -, rfl⟩ := h
    exact .inr (.inl ⟨op2, args, rfl⟩)
  case cnew =>
    obtain ⟨x, -, y, -, rfl⟩ := h
    exact .inr (.inr (.inl ⟨x, y, rfl⟩))
  case tnew =>
    obtain ⟨t', -, w₁, hw₁, rfl⟩ := h
    exact .inl (hstore _ _ _ (alloc_eq hw₁).2)
  case tdup =>
    obtain ⟨tv, -, t', -, w₁, hw₁, rfl⟩ := h
    exact .inl (hstore _ _ _ (alloc_eq hw₁).2)
  case astore =>
    obtain ⟨kv, -, tv, -, k, -, v, -, h⟩ := h
    simp only [evalAstore, Option.bind_eq_bind, Option.bind_eq_some_iff] at h
    obtain ⟨p, -, h⟩ := h
    split at h
    · split at h
      · simp only [Option.bind_eq_some_iff, Option.pure_def, Option.some.injEq] at h
        obtain ⟨tab, -, rfl⟩ := h
        exact .inl (hstore _ _ _ rfl)
      · cases h
        exact .inl (hsame _ rfl)
    · cases h
      exact .inl (hsame _ rfl)
  case hstore =>
    obtain ⟨kv, -, tv, -, k, -, v, -, h⟩ := h
    obtain ⟨a, t', hw⟩ : ∃ a t', e.world = m.world.setTable a t' := by
      simp only [evalHstore, Option.bind_eq_bind, Option.bind_eq_some_iff, Option.pure_def, Option.some.injEq] at h
      obtain ⟨p, -, tab, -, rfl⟩ := h
      exact ⟨_, _, rfl⟩
    exact .inl (hstore _ _ _ hw)
  case fstore =>
    obtain ⟨a, t', hw⟩ : ∃ a t', e.world = m.world.setTable a t' := by
      split at h
      · simp only [evalFstore, Option.bind_eq_bind, Option.bind_eq_some_iff, Option.pure_def, Option.some.injEq] at h
        obtain ⟨tv, -, p, -, rfl⟩ := h
        exact ⟨_, _, rfl⟩
      · simp only [evalFstore, Option.bind_eq_bind, Option.bind_eq_some_iff, Option.pure_def, Option.some.injEq] at h
        obtain ⟨tv, -, mv, -, p, -, b, -, rfl⟩ := h
        exact ⟨_, _, rfl⟩
    exact .inl (hstore _ _ _ hw)
  all_goals first
    | (subst h; exact .inl (hsame _ rfl))
    | (obtain ⟨x, -, rfl⟩ := h
       first | exact .inl (hsame _ rfl) | exact .inl (hsame _ (evalConv_world _)))
    | (obtain ⟨x, -, y, -, rfl⟩ := h; exact .inl (hsame _ rfl))
    | (obtain ⟨x, -, y, -, z, -, rfl⟩ := h; exact .inl (hsame _ rfl))
    | (obtain ⟨x, -, y, -, h⟩ := h
       first | exact .inl (hsame _ (evalHload_world h)) | exact .inl (hsame _ (evalAload_world h)))
    | (obtain ⟨x, -, h⟩ := h; exact .inl (hsame _ (evalFload_world h)))

end Frame

section Buffer
variable {H : Type} {Q : Strings} {R : Runtime H} {buf : IrBuf} {tr : Trace} {m m' d : Machine (Buffered H)} {ins : IRIns}
  {e : Effect (Buffered H)}

theorem evalIns_stack_eq (h : evalIns (R.withBuffer Q) buf m ins = some e) : e.world.stack = m.world.stack := by
  obtain ⟨tables, rest, hw, -⟩ := evalIns_frame h
  rw [hw]

/-- An instruction that leaves the trace, or that is none of the buffer's, leaves the buffer alone. -/
theorem evalIns_buffer (h : evalIns (R.withBuffer Q) buf m ins = some e)
    (hl : e.leave = true ∨ ¬ (ins.op = .bufhdr ∨ ins.op = .bufput ∨ ins.op = .bufstr)) :
    e.world.rest.2 = m.world.rest.2 := by
  obtain ⟨tables, rest, hw, hcases⟩ := evalIns_frame h
  rw [hw]
  rcases hcases with rfl | ⟨idx, args, rfl⟩ | ⟨x, y, rfl⟩ | ⟨hstay, hop⟩
  · rfl
  · rfl
  · rfl
  · cases hl with
    | inl hl =>
      rw [hstay] at hl
      cases hl
    | inr hno => exact absurd hop hno

/-! ### A run beside a run with strings -/

theorem blind_withoutBuffer : (R.withoutBuffer Q).Blind (fun h h' => h'.1 = h.1) := by
  refine ⟨fun h h' v hh => ?_, fun h h' x y hh => ⟨?_, ?_⟩, fun _ _ _ hh => hh, fun _ _ _ hh => hh,
    fun _ _ hh => ⟨rfl, hh⟩⟩
  · exact congrArg (R.upval · v) hh
  · exact congrArg (fun h => (R.cnew x y h).2) hh
  · exact congrArg (fun h => (R.cnew x y h).1) hh

/-- Without tables to avoid, no helper tells the two worlds apart. -/
theorem avoids_withoutBuffer : Avoids (R.withoutBuffer Q) (fun h h' => h'.1 = h.1) buf [] m := by
  have hproj : ∀ w', Alike (fun h h' : Buffered H => h'.1 = h.1) [] m.world w' →
      (⟨w'.stack, w'.tables, w'.rest.1⟩ : World H) = ⟨m.world.stack, m.world.tables, m.world.rest.1⟩ := by
    intro w' hw
    have ht : w'.tables = m.world.tables := by rw [hw.tables]; simp
    rw [hw.stack, ht, hw.rest]
  intro ins hi
  cases ins.op
  case calll =>
    intro args w' _ hw
    refine ⟨congrArg (fun w => (R.call ins.op2 args w).2) (hproj w' hw), ?_⟩
    exact congrArg (fun w => (R.call ins.op2 args w).1) (hproj w' hw)
  case gcstep => exact fun w' hw => congrArg R.shouldCollect (hproj w' hw)
  all_goals first | exact trivial | exact fun a ha => nomatch ha

theorem evalIns_withoutBuffer (hop : ¬ (ins.op = .bufhdr ∨ ins.op = .bufput ∨ ins.op = .bufstr)) :
    evalIns (R.withBuffer Q) buf m ins = evalIns (R.withoutBuffer Q) buf m ins := by
  rcases ins with ⟨op, t, op1, op2, prev⟩
  cases op
  all_goals first | rfl | exact absurd (by simp) hop

theorem evalIns_idle {R' : Runtime (Buffered H)} (hidle : idle ins = true) :
    evalIns R' buf m ins = some (.skip m.world) := by
  rcases ins with ⟨op, t, op1, op2, prev⟩
  cases op
  all_goals first | rfl | (simp [idle] at hidle)

theorem Stands.refl (m : Machine (Buffered H)) : Stands m m :=
  ⟨rfl, rfl, rfl, ⟨rfl, by simp, rfl⟩, fun _ => .inl rfl⟩

theorem Stands.read (h : Stands m m') {q : ℕ} {v : LuaValue} (hv : readRef buf m.env q = some v) :
    ∃ v', readRef buf m'.env q = some v' ∧ Marks v v' := by
  rw [readRef] at hv ⊢
  split at hv
  · next hq =>
    obtain rfl := Option.some.inj hv
    exact ⟨_, if_pos hq, h.env q⟩
  · next hq => exact ⟨v, by rw [if_neg hq, hv], .inl rfl⟩

/-- The reference of an operand that has no marker. -/
theorem Stands.read_eq {q : ℕ} {v : LuaValue} (hq : REF_BIAS ≤ q → m.env q = m'.env q)
    (hv : readRef buf m.env q = some v) : readRef buf m'.env q = some v := by
  rw [readRef] at hv ⊢
  split at hv
  · next h => rw [if_pos h, ← hq h, hv]
  · next h => rw [if_neg h, hv]

theorem Stands.words (h : Stands m m') {es : List SnapEntry} {vs : List LuaValue} (hv : tr.words m.env es = some vs) :
    ∃ vs', tr.words m'.env es = some vs' ∧ List.Forall₂ Marks vs vs' := by
  induction es generalizing vs with
  | nil =>
    obtain rfl := Option.some.inj hv
    exact ⟨[], rfl, .nil⟩
  | cons sn es ih =>
    simp only [words_cons] at hv ⊢
    cases hn : sn.norestore with
    | true =>
      rw [hn, if_pos rfl] at hv
      rw [if_pos rfl]
      exact ih hv
    | false =>
      rw [hn, if_neg (by decide)] at hv
      rw [if_neg (by decide)]
      obtain ⟨v, hread, hv⟩ := Option.bind_eq_some_iff.mp hv
      obtain ⟨vs₀, hvs₀, rfl⟩ := Option.map_eq_some_iff.mp hv
      obtain ⟨v', hread', hm⟩ := h.read hread
      obtain ⟨vs', hvs', hall⟩ := ih hvs₀
      exact ⟨v' :: vs', by rw [hread', hvs']; rfl, .cons hm hall⟩

/-- An instruction that is none of the buffer's and reads no marker does the same beside strings. -/
theorem Stands.eval (h : Stands m m') (hi : buf.ir m.r = some ins)
    (hop : ¬ (ins.op = .bufhdr ∨ ins.op = .bufput ∨ ins.op = .bufstr))
    (hread : ∀ q, Operand buf ins q → REF_BIAS ≤ q → m.env q = m'.env q)
    (he : evalIns (R.withBuffer Q) buf m ins = some e) :
    ∃ e', evalIns (R.withoutBuffer Q) buf m' ins = some e' ∧ e'.val = e.val ∧ e'.leave = e.leave ∧
      Alike (fun h h' => h'.1 = h.1) [] e.world e'.world := by
  rw [evalIns_withoutBuffer hop] at he
  have hreading : Reading buf buf m.env m'.env id (Operand buf ins) :=
    ⟨fun q v hq hv => Stands.read_eq (hread q hq) hv, fun q kv hq hc => ⟨hc, .key hq hc, .val hq hc⟩,
      fun q v hv => hv, fun q => Iff.rfl⟩
  have hsubst := evalIns_subst hreading .op1 .op2 (fun _ => rfl) (fun _ => rfl) he
  obtain ⟨e', he', halike⟩ := evalIns_alike (m := { m with env := m'.env }) blind_withoutBuffer
    (by simp) h.world hi avoids_withoutBuffer hsubst
  refine ⟨e', ?_, halike.val, halike.leave, halike.world⟩
  have hm : m' = { m with env := m'.env, world := m'.world } := by
    rcases m' with ⟨r', env', w', cbase', clock'⟩
    obtain ⟨rfl, rfl, rfl, -, -⟩ := h
    rfl
  rw [hm]
  exact he'

/-- A value for the slot of an instruction, in both machines. -/
theorem Stands.commit (h : Stands m m') {e' : Effect (Buffered H)} (hv : ∀ q, (commit m' e').env q = (commit m e).env q ∨
      (commit m e).env q = LuaValue.BUF_MARK ∧ ∃ a, (commit m' e').env q = .str a)
    (hw : Alike (fun h h' => h'.1 = h.1) [] e.world e'.world) : Stands (Ir.commit m e) (Ir.commit m' e') :=
  ⟨congrArg Nat.succ h.r, h.cbase, congrArg Nat.succ h.clock, hw, hv⟩

/-- The parallel assignment at the loop edge moves markers and strings alike. -/
theorem Stands.assignPhis (h : Stands m m') {ps : List (ℕ × ℕ)} {env : ℕ → LuaValue}
    (ha : tr.assignPhis m.env ps = some env) :
    ∃ env', tr.assignPhis m'.env ps = some env' ∧ ∀ q, Marks (env q) (env' q) := by
  have hread : ∀ (ps : List (ℕ × ℕ)) vs, (ps.mapM fun p => readRef tr.ir m.env p.2) = some vs →
      ∃ vs', (ps.mapM fun p => readRef tr.ir m'.env p.2) = some vs' ∧ List.Forall₂ Marks vs vs' := by
    intro ps
    induction ps with
    | nil =>
      intro vs hv
      obtain rfl := Option.some.inj hv
      exact ⟨[], rfl, .nil⟩
    | cons p ps ih =>
      intro vs hv
      simp only [List.mapM_cons, Option.bind_eq_bind, Option.bind_eq_some_iff, Option.pure_def, Option.some.injEq] at hv
      obtain ⟨v, hv, vs₀, hvs₀, rfl⟩ := hv
      obtain ⟨v', hv', hm⟩ := h.read hv
      obtain ⟨vs', hvs', hall⟩ := ih vs₀ hvs₀
      exact ⟨v' :: vs', by rw [List.mapM_cons, hv', hvs']; rfl, .cons hm hall⟩
  have hwrite : ∀ (ps : List (ℕ × ℕ)) (vs vs' : List LuaValue) (env env' : ℕ → LuaValue), List.Forall₂ Marks vs vs' →
      (∀ q, Marks (env q) (env' q)) → ∀ q,
        Marks ((ps.zip vs).foldl (fun env p => Function.update env p.1.1 p.2) env q)
          ((ps.zip vs').foldl (fun env p => Function.update env p.1.1 p.2) env' q) := by
    intro ps
    induction ps with
    | nil =>
      intro vs vs' env env' _ henv
      simpa using henv
    | cons p ps ih =>
      intro vs vs' env env' hall henv
      cases hall with
      | nil => simpa using henv
      | @cons v v' vs vs' hm hall =>
        rw [List.zip_cons_cons, List.zip_cons_cons, List.foldl_cons, List.foldl_cons]
        refine ih vs vs' _ _ hall fun q => ?_
        by_cases hq : q = p.1
        · rw [hq, Function.update_self, Function.update_self]
          exact hm
        · rw [Function.update_of_ne hq, Function.update_of_ne hq]
          exact henv q
  simp only [Trace.assignPhis, Option.bind_eq_bind, Option.bind_eq_some_iff] at ha
  obtain ⟨vs, hvs, ha⟩ := ha
  split at ha
  · next hall =>
    obtain rfl := Option.some.inj ha
    obtain ⟨vs', hvs', hmarks⟩ := hread ps vs hvs
    refine ⟨_, ?_, hwrite ps vs vs' _ _ hmarks h.env⟩
    simp only [Trace.assignPhis, hvs', Option.bind_eq_bind, Option.bind_some, if_pos hall]
  · cases ha

/-- A restored snapshot, if the markers among its words are flushed right. -/
theorem Stands.restore (h : Stands m m') {idx : ℕ} {w : World (Buffered H)}
    (hexact : ∀ sn es vs vs', tr.snap[idx]? = some sn → tr.entries sn = some es → tr.words m.env es = some vs →
      tr.words m'.env es = some vs' → FlushExact Q m.world.rest.2 vs vs')
    (hw : tr.restoreSnapshot (R.withBuffer Q) m idx = some w) :
    ∃ w', tr.restoreSnapshot (R.withoutBuffer Q) m' idx = some w' ∧ Alike (fun h h' => h'.1 = h.1) [] w w' := by
  simp only [Trace.restoreSnapshot, Option.bind_eq_bind, Option.bind_eq_some_iff, restore_withBuffer,
    Option.map_eq_some_iff] at hw
  obtain ⟨sn, hsn, es, hes, vs, hvs, rfl⟩ := hw
  obtain ⟨vs', hvs', hmarks⟩ := h.words hvs
  have hvals := (restoredValues_eq_iff hmarks).mpr (hexact sn es vs vs' hsn hes hvs hvs')
  refine ⟨restored m'.world m'.cbase es vs' m'.world.rest.2, ?_, ?_, h.world.tables, h.world.rest⟩
  · simp only [Trace.restoreSnapshot, hsn, hes, Option.bind_eq_bind, Option.bind_some, restore_withoutBuffer, hvs',
      Option.map_some]
  · simp only [restored, h.world.stack, h.cbase, hvals]

theorem Stands.tail (h : Stands m m')
    (hc : (tr.looping = true → tr.ir.chain .loop = 0) → ∀ sn es vs vs', tr.snap[tr.snap.length - 1]? = some sn →
      tr.entries sn = some es → tr.words m.env es = some vs → tr.words m'.env es = some vs' →
        FlushExact Q m.world.rest.2 vs vs')
    (hs : tr.tail (R.withBuffer Q) m = some (.run d)) :
    ∃ d', tr.tail (R.withoutBuffer Q) m' = some (.run d') ∧ Stands d d' := by
  rw [Trace.tail] at hs ⊢
  by_cases hlk : tr.looping = true
  · rw [if_pos hlk] at hs ⊢
    by_cases hchain : tr.ir.chain .loop ≠ 0
    · rw [if_pos hchain] at hs ⊢
      simp only [Option.bind_eq_bind, Option.bind_eq_some_iff, Option.pure_def, Option.some.injEq] at hs
      obtain ⟨env, henv, hs⟩ := hs
      cases hs
      obtain ⟨env', henv', hmarks⟩ := h.assignPhis henv
      refine ⟨{ m' with env := env', r := tr.ir.chain .loop + 1 }, by rw [henv']; rfl, ?_⟩
      exact ⟨rfl, h.cbase, h.clock, h.world, hmarks⟩
    · rw [if_neg hchain] at hs ⊢
      simp only [Option.bind_eq_bind, Option.bind_eq_some_iff, Option.pure_def, Option.some.injEq] at hs
      obtain ⟨w, hw, hs⟩ := hs
      cases hs
      obtain ⟨w', hw', halike⟩ := h.restore (hc fun _ => not_not.mp hchain) hw
      refine ⟨{ m' with world := w', r := REF_FIRST }, by rw [hw']; rfl, ?_⟩
      exact ⟨rfl, h.cbase, h.clock, halike, h.env⟩
  · rw [if_neg hlk] at hs ⊢
    by_cases hrec : tr.recursing = true
    · rw [if_pos hrec] at hs ⊢
      simp only [Option.bind_eq_bind, Option.bind_eq_some_iff, Option.pure_def, Option.some.injEq] at hs
      obtain ⟨sn, hsn, w, hw, hs⟩ := hs
      cases hs
      obtain ⟨w', hw', halike⟩ := h.restore (hc fun hl => absurd hl hlk) hw
      refine ⟨{ m' with world := w', r := REF_FIRST, cbase := m'.cbase + sn.baseslot - 2 }, by rw [hsn, hw']; rfl, ?_⟩
      exact ⟨rfl, by rw [h.cbase], h.clock, halike, h.env⟩
    · rw [if_neg hrec] at hs
      simp only [Trace.exitSnapshot, Option.bind_eq_bind, Option.bind_eq_some_iff] at hs
      obtain ⟨w, -, hs⟩ := hs
      cases hs

/-- Both machines after an instruction: their slots agree up to markers. -/
theorem Stands.marks_commit (h : Stands m m') {e' : Effect (Buffered H)}
    (hv : e.val = none ∧ e'.val = none ∨ ∃ v v', e.val = some v ∧ e'.val = some v' ∧ Marks v v') (q : ℕ) :
    Marks ((Ir.commit m e).env q) ((Ir.commit m' e').env q) := by
  cases hv with
  | inl hv =>
    rw [Ir.commit, Ir.commit, hv.1, hv.2]
    exact h.env q
  | inr hv =>
    obtain ⟨v, v', hv, hv', hm⟩ := hv
    simp only [Ir.commit, hv, hv', h.r]
    by_cases hq : q = m.r
    · rw [hq, Function.update_self, Function.update_self]
      exact hm
    · rw [Function.update_of_ne hq, Function.update_of_ne hq]
      exact h.env q

/-- A buffer instruction that stays leaves the marker and changes nothing but the buffer. -/
theorem evalBuf_stays {start : Bool} {v : LuaValue} (he : e = evalBuf (R.withBuffer Q) m start v) (hl : e.leave = false) :
    e.val = some LuaValue.BUF_MARK ∧ e.world.stack = m.world.stack ∧ e.world.tables = m.world.tables ∧
      e.world.rest.1 = m.world.rest.1 ∧ ((start = true ∧ v = LuaValue.BUF_MARK) ∨ isText v = true) := by
  subst he
  rw [evalBuf] at hl ⊢
  split at hl
  · next hm =>
    rw [if_pos hm]
    exact ⟨rfl, rfl, rfl, rfl, .inl (by simpa using hm)⟩
  · next hm =>
    rw [if_neg hm]
    split at hl
    · next ht =>
      rw [if_pos ht]
      refine ⟨rfl, rfl, rfl, ?_, .inr ht⟩
      cases start <;> rfl
    · cases hl

/-- A step of `BUFHDR` or `BUFPUT` beside the one with strings. -/
theorem Stands.concat (h : Stands m m') (hr : m.r < tr.ir.nins) (hi : tr.ir.ir m.r = some ins) (hc : tr.Clean Q m m')
    (hop : ins.op = .bufhdr ∨ ins.op = .bufput) (he : evalIns (R.withBuffer Q) tr.ir m ins = some e)
    (hl : e.leave = false) : ∃ d', tr.concatIns Q R m' ins = some (.run d') ∧ Stands (Ir.commit m e) d' := by
  have hidle : idle ins = false := by cases hop with | inl h => simp [idle, h] | inr h => simp [idle, h]
  rw [Trace.Clean, if_pos hr] at hc
  have hc := hc ins hi hidle
  have hstep : ∀ s start v, e = evalBuf (R.withBuffer Q) m start v →
      Stands (Ir.commit m e) (Ir.commit m' (.write m'.world (Q.str s))) := by
    intro s start v hv
    obtain ⟨hval, hstack, htables, hrest, -⟩ := evalBuf_stays hv hl
    refine h.commit (fun q => h.marks_commit (.inr ⟨_, _, hval, rfl, .inr ⟨rfl, _, rfl⟩⟩) q) ⟨?_, ?_, ?_⟩
    · exact h.world.stack.trans hstack.symm
    · rw [htables]
      exact h.world.tables
    · exact h.world.rest.trans hrest.symm
  rw [Trace.concatIns]
  cases hop with
  | inl hop =>
    rw [if_pos hop] at hc ⊢
    obtain ⟨v, hv, hev⟩ : ∃ v, readRef tr.ir m.env ins.op1 = some v ∧ e = evalBuf (R.withBuffer Q) m true v := by
      rcases ins with ⟨op, t, op1, op2, prev⟩
      cases hop
      simp only [evalIns, Option.bind_eq_bind, Option.bind_eq_some_iff, Option.pure_def, Option.some.injEq] at he
      obtain ⟨v, hv, rfl⟩ := he
      exact ⟨v, hv, rfl⟩
    obtain ⟨v', hv', -⟩ := h.read hv
    refine ⟨_, ?_, hstep (Q.text v') true v hev⟩
    simp only [hv', Option.bind_eq_bind, Option.bind_some, hc v' hv', if_true]
    rfl
  | inr hop =>
    have hhdr : ¬ ins.op = .bufhdr := by rw [hop]; decide
    rw [if_neg hhdr, if_pos hop] at hc
    rw [if_neg hhdr]
    obtain ⟨v, hv, hev⟩ : ∃ v, readRef tr.ir m.env ins.op2 = some v ∧ e = evalBuf (R.withBuffer Q) m false v := by
      rcases ins with ⟨op, t, op1, op2, prev⟩
      cases hop
      simp only [evalIns, Option.bind_eq_bind, Option.bind_eq_some_iff, Option.pure_def, Option.some.injEq] at he
      obtain ⟨v, hv, rfl⟩ := he
      exact ⟨v, hv, rfl⟩
    obtain ⟨hval, -, -, -, htext⟩ := evalBuf_stays hev hl
    have htext : isText v = true := htext.resolve_left (by simp)
    have hv' := Stands.read_eq hc.2 hv
    simp only [hv', Option.bind_eq_bind, Option.bind_some, htext, if_true]
    refine ⟨_, rfl, ?_⟩
    obtain ⟨hr', hcb, hck, hw, henv⟩ := hstep (Q.text (m'.env ins.op1) ++ Q.text v) false v hev
    refine ⟨hr', hcb, hck, hw, fun q => ?_⟩
    by_cases hq : q = ins.op1
    · have hne : (Ir.commit m e).env q = LuaValue.BUF_MARK := by
        by_cases hqr : q = m.r
        · rw [Ir.commit, hval, hqr]
          exact Function.update_self _ _ _
        · rw [commit_env_ne e hqr, hq]
          exact hc.1.2
      refine .inr ⟨hne, Q.intern (Q.text (m'.env ins.op1) ++ Q.text v), ?_⟩
      rw [hq]
      exact Function.update_self _ _ _
    · have hmark := henv q
      simp only [Ir.commit, Effect.write] at hmark ⊢
      rw [Function.update_of_ne hq]
      exact hmark

/-- A step that takes no marker for a value is a step of the run with strings. -/
theorem Stands.step (h : Stands m m') (hc : tr.Clean Q m m') (hs : tr.step (R.withBuffer Q) m = some (.run d)) :
    ∃ d', tr.concatStep Q R m' = some (.run d') ∧ Stands d d' := by
  rw [Trace.concatStep, h.r]
  by_cases hr : m.r < tr.ir.nins
  · obtain ⟨ins, e, hi, he, hl, rfl⟩ := step_run hr hs
    have hi' : tr.ir.ir m'.r = some ins := by rw [h.r, hi]
    have hr' : m'.r < tr.ir.nins := by rw [h.r]; exact hr
    rw [if_pos hr, hi]
    by_cases hcat : ins.op = .bufhdr ∨ ins.op = .bufput
    · obtain ⟨d', hd, hst⟩ := h.concat hr hi hc hcat he hl
      exact ⟨d', by rw [← hd]; exact if_pos hcat, hst⟩
    · have hbeside : ∃ e', evalIns (R.withoutBuffer Q) tr.ir m' ins = some e' ∧ e'.val = e.val ∧ e'.leave = e.leave ∧
          Alike (fun h h' => h'.1 = h.1) [] e.world e'.world := by
        cases hidle : idle ins with
        | true =>
          rw [evalIns_idle hidle, Option.some.injEq] at he
          subst he
          exact ⟨_, evalIns_idle hidle, rfl, rfl, h.world⟩
        | false =>
          rw [Trace.Clean, if_pos hr] at hc
          have hc := hc ins hi hidle
          rw [if_neg fun h => hcat (.inl h), if_neg fun h => hcat (.inr h)] at hc
          refine h.eval hi (fun hop => ?_) hc.2 he
          rcases hop with hop | hop | hop
          · exact hcat (.inl hop)
          · exact hcat (.inr hop)
          · exact hc.1 hop
      obtain ⟨e', he', hv, hleave, hw⟩ := hbeside
      refine ⟨Ir.commit m' e', ?_, h.commit (fun q => h.marks_commit ?_ q) hw⟩
      · rw [← step_of_eval hr' hi' he' (hleave.trans hl)]
        exact if_neg hcat
      · rw [hv]
        cases e.val with
        | none => exact .inl ⟨rfl, rfl⟩
        | some v => exact .inr ⟨v, v, rfl, rfl, .inl rfl⟩
  · rw [Trace.Clean, if_neg hr] at hc
    rw [Trace.step, if_neg hr] at hs
    obtain ⟨d', hd, hst⟩ := h.tail hc hs
    refine ⟨d', ?_, hst⟩
    rw [if_neg hr, ← hd, Trace.step, h.r, if_neg hr]

/-- The run with strings goes along with the run with markers as long as its steps are clean. -/
theorem Trace.Beside.stands {m₀ : Machine (Buffered H)} (h : tr.Beside Q R m₀ m m') : Stands m m' := by
  induction h with
  | refl => exact Stands.refl m₀
  | step _ clean run run' ih =>
    obtain ⟨d', hd', hst⟩ := ih.step clean run
    rw [run', Option.some.injEq, Result.run.injEq] at hd'
    rw [hd']
    exact hst

/-! ### Leaving the trace -/

section Leave
variable {c c' : Machine (Buffered H)} {exitno : ℕ} {sn : SnapShot} {es : List SnapEntry} {gc : Bool}

theorem words_congr {env env' : ℕ → LuaValue} (h : ∀ e ∈ es, env' e.ref = env e.ref) :
    tr.words env' es = tr.words env es := by
  induction es with
  | nil => rfl
  | cons e es ih =>
    have hread : readRef tr.ir env' e.ref = readRef tr.ir env e.ref := by
      rw [readRef, readRef, h e List.mem_cons_self]
    rw [words_cons, words_cons, ih fun e he => h e (List.mem_cons_of_mem _ he), hread]

theorem length_words {env : ℕ → LuaValue} {vs : List LuaValue} (h : tr.words env es = some vs) :
    vs.length = (toRestore es).length := by
  rw [Trace.words] at h
  generalize toRestore es = l at h ⊢
  induction l generalizing vs with
  | nil =>
    obtain rfl := Option.some.inj h
    rfl
  | cons e l ih =>
    simp only [List.mapM_cons, Option.bind_eq_bind, Option.bind_eq_some_iff, Option.pure_def, Option.some.injEq] at h
    obtain ⟨v, -, vs₀, hvs₀, rfl⟩ := h
    rw [List.length_cons, List.length_cons, ih hvs₀]

theorem Straight.stack (h : Straight (R.withBuffer Q) buf c m) : m.world.stack = c.world.stack := by
  induction h with
  | refl => rfl
  | tail _ hn ih =>
    obtain ⟨-, ins, e, -, he, -, rfl⟩ := hn
    exact (evalIns_stack_eq he).trans ih

theorem Straight.cbase (h : Straight (R.withBuffer Q) buf c m) : m.cbase = c.cbase := by
  induction h with
  | refl => rfl
  | tail _ hn ih =>
    obtain ⟨-, -, -, -, -, -, rfl⟩ := hn
    exact ih

/-- What an exit restores: the words of the snapshot as they are at the exit, and the buffer as it is there. -/
theorem step_exit (h : tr.step (R.withBuffer Q) m = some (.exit exitno gc d)) :
    ∃ x : Machine (Buffered H), tr.restoreSnapshot (R.withBuffer Q) x exitno = some d.world ∧ x.cbase = m.cbase ∧
      x.world.stack = m.world.stack ∧ x.world.rest.2 = m.world.rest.2 ∧ ∀ r < m.r, x.env r = m.env r := by
  have hsnap : ∀ {x : Machine (Buffered H)} {idx : ℕ} {gc' : Bool},
      tr.exitSnapshot (R.withBuffer Q) x idx gc' = some (.exit exitno gc d) →
        tr.restoreSnapshot (R.withBuffer Q) x exitno = some d.world := by
    intro x idx gc' hx
    simp only [Trace.exitSnapshot, Option.bind_eq_bind, Option.bind_eq_some_iff, Option.pure_def, Option.some.injEq,
      Trace.Result.exit.injEq] at hx
    obtain ⟨w, hw, rfl, -, rfl⟩ := hx
    exact hw
  rw [Trace.step] at h
  split at h
  · simp only [Option.bind_eq_bind, Option.bind_eq_some_iff] at h
    obtain ⟨ins, -, e, he, h⟩ := h
    cases hl : e.leave with
    | false =>
      rw [hl, if_neg (by decide)] at h
      cases h
    | true =>
      rw [hl, if_pos rfl] at h
      refine ⟨commit m e, hsnap h, rfl, evalIns_stack_eq he, evalIns_buffer he (.inl hl), fun r hr => ?_⟩
      exact commit_env_ne e (Nat.ne_of_lt hr)
  · rw [Trace.tail] at h
    split at h
    · split at h
      all_goals
        simp only [Option.bind_eq_bind, Option.bind_eq_some_iff] at h
        obtain ⟨_, -, h⟩ := h
        cases h
    · split at h
      · simp only [Option.bind_eq_bind, Option.bind_eq_some_iff] at h
        obtain ⟨_, -, _, -, h⟩ := h
        cases h
      · exact ⟨m, hsnap h, rfl, rfl, rfl, fun _ _ => rfl⟩

/-- The slots of a snapshot are distinct places of the stack. -/
theorem nodup_stackSlots {base : ℕ} (hb : 2 ≤ base) (h : ((toRestore es).map (·.slot)).Nodup) :
    (stackSlots base es).Nodup := by
  have hmap : stackSlots base es = ((toRestore es).map (·.slot)).map fun s => base + s - 2 := by
    rw [List.map_map]
    rfl
  rw [hmap]
  refine h.map fun s s' hs => ?_
  omega

end Leave

end Buffer

/-! ### A string appended once -/

namespace Append

theorem digits_bytes (s : List UInt8) :
    (Nat.digits 257 (Nat.ofDigits 257 (s.map fun b => b.toNat + 1))).map (fun d => UInt8.ofNat (d - 1)) = s := by
  rw [Nat.digits_ofDigits 257 (by decide) _ (fun l hl => ?_) (fun hne => ?_), List.map_map]
  · refine (List.map_congr_left fun b _ => ?_).trans (List.map_id s)
    exact UInt8.ofNat_toNat
  · obtain ⟨b, -, rfl⟩ := List.mem_map.mp hl
    have := b.toNat_lt
    omega
  · rw [List.getLast_map]
    exact Nat.succ_ne_zero _

/-- Strings numbered by their bytes. -/
def strings : Strings where
  bytes a := (Nat.digits 257 a).map fun d => UInt8.ofNat (d - 1)
  intern s := Nat.ofDigits 257 (s.map fun b => b.toNat + 1)
  g14 _ := []
  bytes_intern := digits_bytes

/-- The strings `a` and `b`. -/
def a : LuaValue := strings.str [97]
def b : LuaValue := strings.str [98]

/-- `s = s .. "b"`, for `s` in slot 2, that leaves the trace at its end. -/
def append (es : List SnapEntry) : Trace :=
  let (buf, kb) := (IrBuf.new 0 0).pushK (.new .kgc (plain .str) 0 0) b
  let (buf, s) := buf.emitIns (.new .sload (guarded .str) 2 0)
  let (buf, hdr) := buf.emitIns (.new .bufhdr (plain .str) s 0)
  let (buf, _) := buf.emitIns (.new .bufput (plain .str) hdr kb)
  ⟨1, buf, [⟨0, REF_FIRST, 0, 2, 0, 0⟩, ⟨0, REF_FIRST + 3, 1, 2, 4, es.length⟩], es, .interp, 0⟩

/-- The entry with `a` in slot 2 and nil in the others. -/
def entry : Machine (Buffered Unit) where
  r := REF_FIRST
  env _ := .num .zero
  world := ⟨fun s => if s = 2 then a else .nil, fun _ => none, ((), [])⟩
  cbase := 2
  clock := 0

/-- The machines with the marker and with strings in the slots, after an instruction. -/
def loaded : Machine (Buffered Unit) := commit entry (.check entry.world a true)
def started : Machine (Buffered Unit) := commit loaded (evalBuf (Runtime.bare.withBuffer strings) loaded true a)
def appended : Machine (Buffered Unit) := commit started (evalBuf (Runtime.bare.withBuffer strings) started false b)
def started' : Machine (Buffered Unit) := commit loaded (.write loaded.world (strings.str [97]))
def appended' : Machine (Buffered Unit) :=
  { commit started' (.write started'.world (strings.str [97, 98])) with
    env := Function.update (Function.update started'.env (REF_FIRST + 2) (strings.str [97, 98])) (REF_FIRST + 1)
      (strings.str [97, 98]) }

theorem text_a : strings.text a = [97] := strings.text_str _
theorem text_b : strings.text b = [98] := strings.text_str _

theorem append_beside (es : List SnapEntry) : (append es).Beside strings .bare entry appended appended' := by
  have h₁ : (append es).Beside strings .bare entry loaded loaded := by
    refine .step .refl (fun ins hi _ => ?_) rfl rfl
    obtain rfl := Option.some.inj hi
    exact ⟨by decide, fun _ _ _ => rfl⟩
  have h₂ : (append es).Beside strings .bare entry started started' := by
    refine .step h₁ (fun ins hi _ => ?_) rfl ?_
    · obtain rfl := Option.some.inj hi
      intro v hv
      obtain rfl := Option.some.inj hv
      rfl
    · show some (Trace.Result.run (commit loaded (.write loaded.world (strings.str (strings.text a))))) = _
      rw [text_a]
      rfl
  refine .step h₂ (fun ins hi _ => ?_) rfl ?_
  · obtain rfl := Option.some.inj hi
    exact ⟨⟨by decide, rfl⟩, fun hle => absurd hle (by decide)⟩
  · have hs : strings.str (strings.text (started'.env (REF_FIRST + 1)) ++ strings.text b) = strings.str [97, 98] := by
      rw [text_b]
      show strings.str (strings.text a ++ [98]) = _
      rw [text_a]
      rfl
    rw [appended', ← hs]
    rfl

theorem appended_buffer : appended.world.rest.2 = [97, 98] := by
  show strings.text a ++ strings.text b = [97, 98]
  rw [text_a, text_b]
  rfl

/-- The exit at the end, with the words `vs` in the slots of `es`. -/
def left (es : List SnapEntry) (vs : List LuaValue) : Machine (Buffered Unit) :=
  { appended with world := restored appended.world 2 es (restoredValues strings appended.world.rest.2 vs) [] }

theorem append_exitAt {es : List SnapEntry} {vs : List LuaValue} (hrefs : ∀ e ∈ es, e.ref < REF_FIRST + 3)
    (hslots : ((toRestore es).map (·.slot)).Nodup)
    (hexit : (append es).step (Runtime.bare.withBuffer strings) appended = some (.exit 1 false (left es vs))) :
    (append es).ExitAt strings .bare appended appended 1 ⟨0, REF_FIRST + 3, 1, 2, 4, es.length⟩ es false (left es vs) := by
  refine ⟨rfl, ?_, hrefs, hslots, le_rfl, .inl rfl, .refl, hexit⟩
  show (if 0 + es.length ≤ es.length then some ((es.drop 0).take es.length) else none) = some es
  rw [if_pos (by rw [Nat.zero_add]), List.drop_zero, List.take_length]

end Append

end LuajitRs.Ir
