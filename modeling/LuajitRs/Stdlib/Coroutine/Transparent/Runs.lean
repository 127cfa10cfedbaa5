import LuajitRs.Stdlib.Coroutine.Transparent

/-! Transparency over whole runs. A run of the code whose yields are direct, and whose resumes into a `pcall` give
enough arguments, is a run of the reference with the same events. -/
namespace LuajitRs.Coroutine.Body

/-- The actions of the body and its resumer; that a protected call returns is no choice of theirs. -/
def visible : Act → Bool
  | .instr (.protectedRet _) => false
  | _ => true

/-! ### Runs of the code -/

namespace Impl

/-- The steps that the code takes as the reference does. -/
def Regular : Impl → Act → Prop
  | .running t, .yield => DirectYield t.host
  | .suspended _ susp _, .resume args _ _ => EnoughArgs susp args
  | _, _ => True

/-- A run with the actions taken and the events seen, whose steps all satisfy `ok`. -/
inductive Run (ok : Impl → Act → Prop) : Impl → List Act → List Event → Impl → Prop
  | refl (u : Impl) : Run ok u [] [] u
  | head {u a es v acts es' w} (hok : ok u a) (hs : u.step a = some (v, es)) (h : Run ok v acts es' w) :
    Run ok u (a :: acts) (es ++ es') w

theorem Run.step {ok : Impl → Act → Prop} {u v w : Impl} {a : Act} {acts : List Act} {es es' fs : List Event}
    (hok : ok u a) (hs : u.step a = some (v, es)) (h : Run ok v acts es' w) (he : fs = es ++ es') :
    Run ok u (a :: acts) fs w := by
  subst he
  exact .head hok hs h

end Impl

/-! ### The simulation -/

/-- A state of the code and one of the reference: a running coroutine is the same in both. -/
inductive Sim : Impl → Ref → Prop
  | fresh : Sim .init .fresh
  | running {t} (hc : Chained t.host) : Sim (.running t) (.running t)
  | suspended {s t susp saved} (hc : Chained t.host) (h : Suspended s t susp saved) :
    Sim (.suspended s susp saved) (.suspended t)
  | dead : Sim .dead .dead

namespace Ref

theorem Run.single {r u : Ref} {a : Act} {es : List Event} (hs : Step r a es u) : Run r [a] es u := by
  have h := Run.head hs (.refl u)
  rwa [List.append_nil] at h

theorem Run.append {r u w : Ref} {acts acts' : List Act} {es es' : List Event} (h : Run r acts es u)
    (h' : Run u acts' es' w) : Run r (acts ++ acts') (es ++ es') w := by
  induction h with
  | refl r => exact h'
  | head hs _ ih =>
    rw [List.append_assoc]
    exact .head hs (ih h')

end Ref

/-- What an outcome that the reference shares leaves behind. -/
theorem sim_after {o : Outcome} (hc : ∀ t, o = .running t → Chained t.host) :
    Sim (Impl.after o).1 (Ref.after o).1 ∧ (Impl.after o).2 = (Ref.after o).2 := by
  cases o with
  | running t => exact ⟨.running (hc t rfl), rfl⟩
  | finished vs => exact ⟨.dead, rfl⟩
  | failed v => exact ⟨.dead, rfl⟩

/-- The reference's resume, when the code's outcome is the delivery of the arguments. -/
theorem delivered_simulates {t : Thread} {ys ny : ℕ} {via : Via} {r : Option ℕ} {rest : List Layer}
    (ht : t.host = .cfun .yield ys ny via r :: rest) (hc : Chained t.host) {args : List LuaValue} {o : Outcome}
    (hd : Delivered t.stack ys via rest args o) (base hi : ℕ) :
    ∃ acts r, Ref.Run (.suspended t) acts (.resumed args :: (Impl.after o).2) r ∧
      acts.filter visible = [.resume args base hi] ∧ Sim (Impl.after o).1 r := by
  have hchained : ∀ u, o = .running u → Chained u.host := by
    intro u ho
    subst ho
    exact hd.chained (ht ▸ hc).tail
  obtain ⟨hsim, hevents⟩ := sim_after hchained
  refine ⟨[.resume args base hi], _, ?_, rfl, hsim⟩
  rw [hevents]
  exact Ref.Run.single (.resume ht hd)

/-- A `pcall` called `yield`: the arguments return to it, and it returns them behind `true`. -/
theorem protected_simulates {t : Thread} {ps ny pn : ℕ} {want : ℤ} {r r' : Option ℕ} {frames : List CallFrame}
    (ht : t.host = [.cfun .yield (ps + 2) ny .host r, .cfun .pcall ps pn (.call want) r', .interp frames])
    {args : List LuaValue} {o : Outcome}
    (hd : Delivered t.stack ps (.call want) [.interp frames] (.bool true :: args) o) (base hi : ℕ) :
    ∃ acts r, Ref.Run (.suspended t) acts (.resumed args :: (Impl.after o).2) r ∧
      acts.filter visible = [.resume args base hi] ∧ Sim (Impl.after o).1 r := by
  have hchained : ∀ u, o = .running u → Chained u.host := by
    intro u ho
    subst ho
    exact hd.chained trivial
  obtain ⟨hsim, hevents⟩ := sim_after hchained
  have hlands : Lands t.stack (putAll t.stack (ps + 2) args) (ps + 2) args :=
    ⟨fun x hx => putAll_below t.stack args hx, fun i h => putAll_value t.stack _ args i h⟩
  have hback : Delivered t.stack (ps + 2) .host [.cfun .pcall ps pn (.call want) r', .interp frames] args
      (.running ⟨putAll t.stack (ps + 2) args, t.multres,
        [.cfun .pcall ps pn (.call want) (some args.length), .interp frames]⟩) := ⟨_, _, rfl, hlands⟩
  have hret : Exec ⟨putAll t.stack (ps + 2) args, t.multres,
      [.cfun .pcall ps pn (.call want) (some args.length), .interp frames]⟩ (.protectedRet hi) o := by
    refine ⟨rfl, ?_⟩
    rw [hlands.readAll rfl]
    have hcall : Chained [.cfun .pcall ps pn (.call want) r', .interp frames] := trivial
    exact hd.congr hcall fun x hx => (putAll_below t.stack args (by omega)).symm
  refine ⟨[.resume args base hi, .instr (.protectedRet hi)], _, ?_, rfl, hsim⟩
  rw [hevents]
  exact .head (.resume ht hback) (.single (.instr hret))

theorem resume_simulates {s : Slots} {t : Thread} {susp : Suspend} {saved : List CallFrame} (hc : Chained t.host)
    (hsus : Suspended s t susp saved) {args : List LuaValue} {base hi : ℕ} (henough : EnoughArgs susp args)
    {o : Outcome} (h : goOn s susp saved args base hi = some o) :
    ∃ acts r, Ref.Run (.suspended t) acts (.resumed args :: (Impl.after o).2) r ∧
      acts.filter visible = [.resume args base hi] ∧ Sim (Impl.after o).1 r := by
  cases hsus with
  | call ht hs => exact delivered_simulates ht hc (goOn_call hs h) base hi
  | tail ht hle hs => exact delivered_simulates ht hc (goOn_tail hle hs h) base hi
  | pcall ht hs => exact protected_simulates ht (goOn_protected hs (henough rfl) h) base hi

/-- A regular step of the code is a step of the reference. -/
theorem step_simulates {u v : Impl} {r : Ref} {a : Act} {es : List Event} (hsim : Sim u r) (hr : u.Regular a)
    (h : u.step a = some (v, es)) :
    ∃ acts r', Ref.Run r acts es r' ∧ acts.filter visible = [a].filter visible ∧ Sim v r' := by
  cases hsim with
  | fresh =>
    cases a with
    | instr i => cases h
    | yield => cases h
    | resume args base hi =>
      simp only [Impl.init, Impl.step, goOn] at h
      split at h
      · next room =>
        cases h
        exact ⟨[.resume args base hi], _, .single (.start room), rfl, .running trivial⟩
      · cases h
  | @running t hc =>
    cases a with
    | instr i =>
      cases he : t.exec i with
      | none => simp [Impl.step, he] at h
      | some o =>
        simp only [Impl.step, he, Option.map_some, Option.some.injEq] at h
        have hsim := sim_after (o := o) fun t' ho => hc.exec (ho ▸ he)
        rw [h] at hsim
        obtain ⟨hsim, rfl⟩ : Sim v (Ref.after o).1 ∧ es = (Ref.after o).2 := hsim
        exact ⟨[.instr i], _, .single (.instr (exec_exec hc he)), rfl, hsim⟩
    | yield =>
      obtain ⟨s, susp, saved, rfl, hsus, ys, ny, via, ret, rest, ht, rfl⟩ := suspended_of_direct hc hr h
      exact ⟨[.yield], _, .single (.yield ht), rfl, .suspended hc hsus⟩
    | resume args base hi => cases h
  | @suspended s t susp saved hc hsus =>
    cases a with
    | instr i => cases h
    | yield => cases h
    | resume args base hi =>
      cases hgo : goOn s susp saved args base hi with
      | none => simp [Impl.step, hgo] at h
      | some o =>
        simp only [Impl.step, hgo, Option.map_some, Option.some.injEq] at h
        cases h
        exact resume_simulates hc hsus hr hgo
  | dead => cases a <;> cases h

theorem run_simulates {u v : Impl} {acts : List Act} {es : List Event} (h : Impl.Run Impl.Regular u acts es v)
    {r : Ref} (hsim : Sim u r) :
    ∃ acts' r', Ref.Run r acts' es r' ∧ acts'.filter visible = acts.filter visible ∧ Sim v r' := by
  induction h generalizing r with
  | refl u => exact ⟨[], r, .refl r, rfl, hsim⟩
  | @head u a es w acts es' v hok hs _ ih =>
    obtain ⟨as, r₁, hrun, hvis, hsim⟩ := step_simulates hsim hok hs
    obtain ⟨as', r', hrun', hvis', hsim'⟩ := ih hsim
    refine ⟨as ++ as', r', hrun.append hrun', ?_, hsim'⟩
    rw [List.filter_append, hvis, hvis', ← List.filter_append]
    rfl

/-- A coroutine that the reference has suspended can be resumed. -/
theorem Sim.resumes {s : Slots} {susp : Suspend} {saved : List CallFrame} {r : Ref}
    (h : Sim (.suspended s susp saved) r) (args : List LuaValue) {base : ℕ} (hb : 2 ≤ base) (hi : ℕ) :
    (goOn s susp saved args base hi).isSome := by
  cases h with
  | fresh =>
    rw [goOn, dif_pos (by omega)]
    rfl
  | suspended hc hsus =>
    cases hsus with
    | call | pcall => rfl
    | @tail ys ny r fr callers ht hle hs => cases callers <;> rfl

/-- Transparency: a run whose yields are direct, and whose resumes into a `pcall` give enough arguments, is a run of
the reference with the same actions and events, and the running body has the same registers in both. -/
theorem transparent {acts : List Act} {es : List Event} {u : Impl}
    (h : Impl.Run Impl.Regular .init acts es u) :
    (∃ acts' r, Ref.Run .fresh acts' es r ∧ acts'.filter visible = acts.filter visible ∧ Sim u r) ∧
      ∀ s susp saved, u = .suspended s susp saved → ∀ args base hi, 2 ≤ base →
        (goOn s susp saved args base hi).isSome := by
  obtain ⟨acts', r, hrun, hvis, hsim⟩ := run_simulates h .fresh
  refine ⟨⟨acts', r, hrun, hvis, hsim⟩, ?_⟩
  intro s susp saved hu args base hi hb
  subst hu
  exact hsim.resumes args hb hi

/-- `return pcall(coroutine.yield, x)` without the tail call, resumed with `y`. -/
theorem transparent_pcall :
    ∃ acts' r, Ref.Run .fresh acts' [.resumed [], .yielded [.str 7], .resumed [.str 8],
      .finished [.bool true, .str 8]] r ∧
      acts'.filter visible = [.resume [] 2 0, .instr (.callC .pcall 1 0 2 2), .instr (.protectC .yield 1),
        .instr (.setC 0 (.str 7)), .yield, .resume [.str 8] 2 0, .instr (.ret 0 2 0)] ∧ Sim .dead r := by
  have hrun : Impl.Run Impl.Regular .init [.resume [] 2 0, .instr (.callC .pcall 1 0 2 2),
      .instr (.protectC .yield 1), .instr (.setC 0 (.str 7)), .yield, .resume [.str 8] 2 0, .instr (.ret 0 2 0)]
      [.resumed [], .yielded [.str 7], .resumed [.str 8], .finished [.bool true, .str 8]] .dead :=
    .step trivial rfl (.step trivial rfl (.step trivial rfl (.step trivial rfl (.step trivial rfl
      (.step (fun _ => by decide) rfl (.step trivial rfl (.refl _) rfl) rfl) rfl) rfl) rfl) rfl) rfl
  exact (transparent hrun).1

theorem eq_of_not_visible {a : Act} (h : ¬ visible a) : ∃ hi, a = .instr (.protectedRet hi) := by
  unfold visible at h
  split at h
  · exact ⟨_, rfl⟩
  · exact absurd rfl h

/-- Where no protected call is about to return, the next step of a run is the next visible action. -/
theorem Ref.Run.uncons {r w : Ref} {acts as : List Act} {es : List Event} {a : Act} (h : Ref.Run r acts es w)
    (hr : ∀ hi es u, ¬ Ref.Step r (.instr (.protectedRet hi)) es u) (hacts : acts.filter visible = a :: as) :
    ∃ u es₁ es₂ acts', Ref.Step r a es₁ u ∧ Ref.Run u acts' es₂ w ∧ es = es₁ ++ es₂ ∧
      acts'.filter visible = as := by
  cases h with
  | refl => cases hacts
  | @head _ b es₁ u acts es₂ _ hs h =>
    rw [List.filter_cons] at hacts
    split at hacts
    · obtain ⟨rfl, hrest⟩ := List.cons.inj hacts
      exact ⟨u, es₁, es₂, acts, hs, h, rfl, hrest⟩
    · next hb =>
      obtain ⟨hi, rfl⟩ := eq_of_not_visible hb
      exact absurd hs (hr hi es₁ u)

theorem Ref.Run.invisible {r w : Ref} {acts : List Act} {es : List Event} (h : Ref.Run r acts es w)
    (hacts : acts.filter visible = []) :
    es = [] ∨ ∃ hi u es₁ es₂ acts', Ref.Step r (.instr (.protectedRet hi)) es₁ u ∧ Ref.Run u acts' es₂ w ∧
      es = es₁ ++ es₂ ∧ acts'.filter visible = [] := by
  cases h with
  | refl => exact .inl rfl
  | @head _ b es₁ u acts es₂ _ hs h =>
    rw [List.filter_cons] at hacts
    split at hacts
    · cases hacts
    · next hb =>
      obtain ⟨hi, rfl⟩ := eq_of_not_visible hb
      exact .inr ⟨hi, u, es₁, es₂, acts, hs, h, rfl, hacts⟩

theorem Ref.Run.uncons_instr {t : Thread} {w : Ref} {acts as : List Act} {es : List Event} {i : Instr} {o : Outcome}
    (h : Ref.Run (.running t) acts es w) (hn : ∀ hi o, ¬ Exec t (.protectedRet hi) o)
    (hacts : acts.filter visible = .instr i :: as) (ho : ∀ o', Exec t i o' → o' = o) :
    ∃ es₂ acts', Ref.Run (Ref.after o).1 acts' es₂ w ∧ es = (Ref.after o).2 ++ es₂ ∧ acts'.filter visible = as := by
  have hr : ∀ hi es u, ¬ Ref.Step (.running t) (.instr (.protectedRet hi)) es u := by
    intro hi es u hs
    cases hs with
    | instr hx => exact hn hi _ hx
  obtain ⟨u, es₁, es₂, acts', hs, hrun, he, hrest⟩ := h.uncons hr hacts
  cases hs with
  | instr hx =>
    obtain rfl := ho _ hx
    exact ⟨es₂, acts', hrun, he, hrest⟩

/-- `pcall(function() coroutine.yield() end)`: after the resume, the return of the inner function ends the coroutine. -/
theorem pcall_loses_frame :
    Impl.Run (fun _ _ => True) .init [.resume [] 2 0, .instr (.callC .pcall 1 0 1 2), .instr (.protectLua 6),
        .instr (.callC .yield 1 0 0 0), .yield, .resume [] 2 0, .instr (.ret 0 0 0)]
        [.resumed [], .yielded [], .resumed [], .finished []] .dead ∧
      ¬ ∃ acts' r, Ref.Run .fresh acts' [.resumed [], .yielded [], .resumed [], .finished []] r ∧
        acts'.filter visible = [.resume [] 2 0, .instr (.callC .pcall 1 0 1 2), .instr (.protectLua 6),
          .instr (.callC .yield 1 0 0 0), .yield, .resume [] 2 0, .instr (.ret 0 0 0)] := by
  refine ⟨.step trivial rfl (.step trivial rfl (.step trivial rfl (.step trivial rfl (.step trivial rfl
    (.step trivial rfl (.step trivial rfl (.refl _) rfl) rfl) rfl) rfl) rfl) rfl) rfl, ?_⟩
  intro ⟨acts, r, h, hacts⟩
  obtain ⟨u, _, _, acts, hs, h, he, hacts⟩ := h.uncons (by intro hi es u hs; cases hs) hacts
  cases hs
  obtain ⟨_, acts, h, he₂, hacts⟩ := h.uncons_instr (fun _ _ => False.elim) hacts fun _ ho =>
    (Option.some.inj ho).symm
  obtain ⟨_, acts, h, he₃, hacts⟩ := h.uncons_instr (fun _ _ => False.elim) hacts fun _ ho =>
    (Option.some.inj ho).symm
  obtain ⟨_, acts, h, he₄, hacts⟩ := h.uncons_instr (fun _ _ => False.elim) hacts fun _ ho =>
    (Option.some.inj ho).symm
  obtain ⟨u, _, _, acts, hs, h, he₅, hacts⟩ := h.uncons (by intro hi es u hs; cases hs; contradiction) hacts
  cases hs
  obtain ⟨u, _, _, acts, hs, h, he₆, hacts⟩ := h.uncons (by intro hi es u hs; cases hs) hacts
  cases hs with
  | resume ht hd =>
    cases ht
    obtain ⟨s, mr, rfl, -⟩ := hd
    obtain ⟨u, _, _, acts, hs, h, he₇, hacts⟩ := h.uncons (by intro hi es u hs; cases hs; contradiction) hacts
    cases hs with
    | instr hx =>
      -- The inner function returns to `pcall`, and after that only `pcall` may return.
      obtain ⟨s, mr, rfl, -⟩ := hx
      obtain rfl | ⟨_, u, _, _, acts, hs, h, he₈, hacts⟩ := h.invisible hacts
      · simp [*, Ref.after] at he
      · cases hs with
        | instr hx =>
          obtain ⟨s, mr, rfl, -⟩ := hx.2
          obtain rfl | ⟨_, u, _, _, acts, hs, h, he₉, hacts⟩ := h.invisible hacts
          · simp [*, Ref.after] at he
          · cases hs
            contradiction

end LuajitRs.Coroutine.Body
