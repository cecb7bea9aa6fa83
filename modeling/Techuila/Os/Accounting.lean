import Mathlib.Data.Set.Card
import Techuila.Os.Lifecycle

/-!
# Every page has one owner

* `Accounted`, `Isolated`: the pages of a state, and what ring 3 reaches of them.
* `Step.keepsOwners`: what a step does to the owners.
* `Run.pages_accounted`: both hold in every run where no task gets the pid 2^32 - 1.
* `pid_wrap`: a run in which a creation returns -1 and has made a task.
-/

namespace Techuila
namespace Os

open Memory

/-- A page is free, or in use with exactly one owner, that has it once; `memory_used_pages` counts those. -/
structure Accounted (k : Kernel) : Prop where
  page : ∀ p < PAGE_COUNT,
    (is_used k.memory p = false ∧ ∀ o, p * PAGE_SIZE ∉ ownedBy k o) ∨
      (is_used k.memory p = true ∧ ∃! o, p * PAGE_SIZE ∈ ownedBy k o)
  owned : ∀ o, ∀ a ∈ ownedBy k o, ∃ p < PAGE_COUNT, a = p * PAGE_SIZE
  nodup : ∀ o, (ownedBy k o).Nodup
  count : memory_used_pages k.memory = {a | ∃ o, a ∈ ownedBy k o}.ncard

/-- No page is user-accessible in the address spaces of two tasks, unless they are the same one. -/
def Isolated (k : Kernel) : Prop :=
  ∀ i j, (k.tasks i).addressSpace ≠ (k.tasks j).addressSpace → ∀ v < 2 ^ 32, ∀ w < 2 ^ 32, ∀ r r',
    translate k.memory.bytes (k.tasks i).addressSpace v = some r → r.user = true →
    translate k.memory.bytes (k.tasks j).addressSpace w = some r' → r'.user = true →
    r.address / PAGE_SIZE ≠ r'.address / PAGE_SIZE

/-- A page that is owned stays so, or was the page of a dead task and is free now; a new one had no owner;
a creation that returns -1 changes nothing. -/
structure Step.keepsOwners (s : Step) : Prop where
  kept : ∀ o, ∀ a ∈ ownedBy s.before o, a ∈ ownedBy s.after o ∨
    (∃ i, o.slot = some i ∧ ((s.before.tasks i).state = .unused ∨ (s.before.tasks i).state = .dead)) ∧
      ∀ o', a ∉ ownedBy s.after o'
  taken : ∀ o, ∀ a ∈ ownedBy s.after o, a ∈ ownedBy s.before o ∨ ∀ o', a ∉ ownedBy s.before o'
  failed : s.event.creates = true → s.result = -1 → ∀ o, ownedBy s.after o = ownedBy s.before o

/-- No task is made when the next pid is 2^32 - 1. -/
def Step.pidLeft (s : Step) : Prop := s.event.fits s.before → s.before.nextPid ≠ 2 ^ 32 - 1

section
variable {I : KernelImage} {k k' : Kernel} {history : List Step}

/-! ## States -/

theorem Inv.accounted (hi : Inv I k) : Accounted k := by
  have hpages : {a | ∃ o, a ∈ ownedBy k o} = ↑(k.memory.usedPages.image (· * 4096)) := by
    ext a
    rw [Set.mem_ofPred_eq, Finset.coe_image, Set.mem_image]
    constructor
    · rintro ⟨o, ha⟩
      obtain ⟨hal, hlt⟩ := hi.page o a ha
      exact ⟨a / 4096, mem_usedPages.mpr ⟨by omega, hi.used_of ha⟩, by omega⟩
    · rintro ⟨p, hp, rfl⟩
      obtain ⟨hlt, hused⟩ := mem_usedPages.mp hp
      exact (hi.used p hlt).mp hused
  refine ⟨fun p hp => ?_, fun o a ha => ?_, hi.nodup, ?_⟩
  · cases hused : is_used k.memory p with
    | true =>
      obtain ⟨o, ho⟩ := (hi.used p hp).mp hused
      exact .inr ⟨rfl, o, ho, fun o' ho' => hi.disjoint o' o _ ho' ho⟩
    | false =>
      refine .inl ⟨rfl, fun o ho => ?_⟩
      rw [(hi.used p hp).mpr ⟨o, ho⟩] at hused
      cases hused
  · obtain ⟨hal, hlt⟩ := hi.page o a ha
    exact ⟨a / 4096, (Nat.div_lt_iff_lt_mul (by decide)).mpr hlt,
      (Nat.div_mul_cancel (Nat.dvd_of_mod_eq_zero hal)).symm⟩
  · rw [hpages, Set.ncard_coe_finset,
      Finset.card_image_of_injective _ fun a b hab => Nat.eq_of_mul_eq_mul_right (by decide) hab]
    exact hi.accounts.count

/-- What ring 3 reaches through the address space of a task is a page of that task. -/
theorem Inv.user_page (hi : Inv I k) {i : Slot} {v : Nat} (hv : v < 2 ^ 32) {r : Translation}
    (hr : translate k.memory.bytes (k.tasks i).addressSpace v = some r) (hu : r.user = true) :
    ∃ a ∈ ownedBy k (.task i), r.address / PAGE_SIZE = a / PAGE_SIZE := by
  have hok := hi.task i
  unfold TaskOk at hok
  split at hok
  · obtain ⟨table, pte, hspace, hal, hpages⟩ := hok
    obtain ⟨-, -, hpresent, haddr⟩ := hspace.of_user hi.kernelSpace hal hv hr hu
    have hj : pteIndexFor v < 1024 := Nat.mod_lt _ (by decide)
    refine ⟨_, hpages _ hj hpresent, ?_⟩
    rw [haddr]
    unfold addressOf PAGE_SIZE
    omega
  · rw [hok.2] at hr
    rw [hi.kernelSpace.not_user hv hr] at hu
    cases hu

theorem Inv.isolated (hi : Inv I k) : Isolated k := by
  intro i j hne v hv w hw r r' hr hu hr' hu' heq
  obtain ⟨a, ha, hpage⟩ := hi.user_page hv hr hu
  obtain ⟨a', ha', hpage'⟩ := hi.user_page hw hr' hu'
  have hal := (hi.page _ a ha).1
  have hal' := (hi.page _ a' ha').1
  have hsame : a = a' := by
    unfold PAGE_SIZE at *
    omega
  subst hsame
  have hslot := hi.disjoint (.task i) (.task j) a ha ha'
  cases hslot
  exact hne rfl

/-! ## Steps -/

/-- What is not created takes no page and frees none. -/
theorem NotCreated.ownedBy (h : NotCreated k k') (hi : Inv I k) (o : Owner) :
    ownedBy k' o = ownedBy k o := by
  obtain ⟨m, rfl, hb⟩ := h
  refine ownedBy_congr hb.reserved rfl fun i _ => ⟨rfl, ?_⟩
  refine ((hi.task i).congr fun a ha x hx hlt => hb.bytes x ?_).2
  exact InTables.used hi (.inr (.inr ⟨i, a, ha, hx, hlt⟩))

theorem Handover.kept {gone held : List Nat} {taker : Nat → Owner}
    (h : Handover I k k' gone held taker) (hi : Inv I k) {o : Owner} {a : Nat}
    (ha : a ∈ Os.ownedBy k o) : a ∈ Os.ownedBy k' o ∨
      (∃ i, o.slot = some i ∧ ((k.tasks i).state = .unused ∨ (k.tasks i).state = .dead)) ∧
        ∀ o', a ∉ Os.ownedBy k' o' := by
  by_cases hgone : a ∈ gone
  swap
  · exact .inl ((h.owned o a).mpr (.inl ⟨ha, hgone⟩))
  obtain ⟨i, hheld, hdead⟩ := h.dead a hgone
  obtain ⟨o', ho', ha'⟩ := mem_held_iff.mp hheld
  obtain rfl := hi.disjoint o o' a ha ha'
  refine .inr ⟨⟨i, ho', hdead⟩, fun o₂ h₂ => ?_⟩
  rcases (h.owned o₂ a).mp h₂ with ⟨-, hnot⟩ | ⟨hmem, -⟩
  · exact hnot hgone
  · exact (hi.used_of ha).notMem_freePages (h.fresh a hmem).2

theorem Handover.taken {gone held : List Nat} {taker : Nat → Owner}
    (h : Handover I k k' gone held taker) (hi : Inv I k) {o : Owner} {a : Nat}
    (ha : a ∈ Os.ownedBy k' o) : a ∈ Os.ownedBy k o ∨ ∀ o', a ∉ Os.ownedBy k o' := by
  rcases (h.owned o a).mp ha with ⟨hold, -⟩ | ⟨hmem, -⟩
  · exact .inl hold
  · exact .inr fun o' ho' => (hi.used_of ho').notMem_freePages (h.fresh a hmem).2

theorem step_keepsOwners (hi : Inv I k) {e : Event} (ha : Allowed I k e) {r : Int}
    (hs : k.step I e = some (r, k')) (hpid : Step.pidLeft ⟨k, e, r, k'⟩) :
    Step.keepsOwners ⟨k, e, r, k'⟩ := by
  obtain ⟨gone, held, taker, hh⟩ := step_handover hi ha hs
  refine ⟨fun o a => hh.kept hi, fun o a => hh.taken hi, fun hc hr => ?_⟩
  rcases step_creates hi hc hs with ⟨-, hn, -⟩ | ⟨hr', -, hfits⟩
  · exact hn.ownedBy hi
  · exact absurd (toInt32_eq_neg_one (hr'.symm.trans hr)) (hpid hfits)

/-! ## Runs -/

/-- The pages of every run, where no task gets the pid 2^32 - 1. -/
theorem Run.pages_accounted (h : Run I k history) (hpids : ∀ s ∈ history, s.pidLeft) :
    Accounted k ∧ Isolated k ∧ ∀ s ∈ history, s.keepsOwners := by
  refine ⟨h.inv.accounted, h.inv.isolated, ?_⟩
  induction h with
  | boot bytes => exact nofun
  | step h ha hs ih =>
    intro s hmem
    rcases List.mem_cons.mp hmem with rfl | hmem
    · exact step_keepsOwners h.inv ha hs (hpids _ (List.mem_cons_self ..))
    · exact ih (fun s hs => hpids s (List.mem_cons_of_mem _ hs)) s hmem

end

/-- The creation of a user task after boot. -/
theorem Run.pages_accounted_user_task : ∃ (k : Kernel) (history : List Step),
    history.map Step.event = [.createUserTask [0x90, 0xEB, 0xFD]] ∧
      Accounted k ∧ Isolated k ∧ ∀ s ∈ history, s.keepsOwners := by
  obtain ⟨r, k, hcall⟩ : ∃ r k, scheduler_create_user_task smallImage
      (Os.boot smallImage fun _ => 0) [0x90, 0xEB, 0xFD] = (r, k) := ⟨_, _, Prod.mk.eta.symm⟩
  refine ⟨k, [⟨_, .createUserTask [0x90, 0xEB, 0xFD], r, k⟩], rfl,
    Run.pages_accounted (.step (e := .createUserTask _) (.boot fun _ => 0) trivial
      (congrArg some hcall)) fun s hs _ => ?_⟩
  rw [List.mem_singleton.mp hs]
  dsimp only
  rw [boot_nextPid smallImage]
  decide

/-! ## The pid 2^32 - 1 -/

/-- Only the idle task lives, and only the kernel owns pages. -/
structure Calm (k : Kernel) : Prop where
  settled : Settled k
  current : k.currentTaskIndex = some 0
  others : ∀ i ≠ 0, (k.tasks i).state = .unused ∨ (k.tasks i).state = .dead
  owned : ∀ o ≠ .kernel, ownedBy k o = []
  reserved : k.memory.reserved_pages = 512

section
variable {I : KernelImage} {k k' : Kernel} {history : List Step}

theorem Handover.owns_nothing {gone : List Nat} {taker : Nat → Owner}
    (h : Handover I k k' gone [] taker) (hk : ∀ o ≠ .kernel, ownedBy k o = []) :
    ∀ o ≠ .kernel, ownedBy k' o = [] := fun o ho => by
  refine List.eq_nil_iff_forall_not_mem.mpr fun a ha => ?_
  rcases (h.owned o a).mp ha with ⟨hold, -⟩ | ⟨hmem, -⟩
  · rw [hk o ho] at hold
    exact List.not_mem_nil hold
  · exact List.not_mem_nil hmem

/-- A call that leaves the only other task that can run makes it current. -/
theorem Rescheduled.only {leave : Option ProcessState} {esp result : Nat}
    (h : Rescheduled k k' leave esp result) {c n : Slot} (hcur : k.currentTaskIndex = some c)
    (hn : n ≠ c) (hrun : runnable (k.tasks n).state = true)
    (honly : ∀ i, i ≠ c → runnable (k.tasks i).state = true → i = n) :
    k'.currentTaskIndex = some n ∧ (k'.tasks c).state = leave.getD .ready ∧
      ∀ i, i ≠ c → i ≠ n → k'.tasks i = k.tasks i := by
  cases h with
  | first hnone => rw [hcur] at hnone; cases hnone
  | stay c' hcur' _ _ _ hother =>
    obtain rfl := Option.some.inj (hcur'.symm.trans hcur)
    rw [hother n hn] at hrun
    cases hrun
  | switch c' n' hcur' hcur₂ hn' hrun' htasks _ =>
    obtain rfl := Option.some.inj (hcur'.symm.trans hcur)
    obtain rfl := honly n' hn' hrun'
    refine ⟨hcur₂, ?_, fun i hic hin => ?_⟩
    · rw [htasks, Function.update_of_ne hn.symm, Function.update_self]
    · rw [htasks, Function.update_of_ne hin, Function.update_of_ne hic]

theorem TaskStep.rescheduled {e : Event} {r : Int} (h : TaskStep I k k' e r)
    {leave : Option ProcessState} {esp : Nat} (he : e.switches = some (leave, esp)) :
    ∃ result, Rescheduled k k' leave esp result ∧ k'.nextPid = k.nextPid := by
  cases h with
  | still _ _ _ hs => rw [he] at hs; cases hs
  | created _ _ _ _ _ _ _ _ _ _ hs => rw [he] at hs; cases hs
  | woken _ _ _ _ _ hs => rw [he] at hs; cases hs
  | switched leave' esp' result hs _ _ _ hres hnext =>
    rw [he] at hs
    cases hs
    exact ⟨result, hres, hnext⟩

/-- A task is made, runs and exits. -/
theorem Calm.round (hk : Calm k) (h : Run I k history) (hlt : k.nextPid + 1 < 2 ^ 32) :
    ∃ k' history', Run I k' history' ∧ Calm k' ∧ k'.nextPid = k.nextPid + 1 := by
  -- the creation
  obtain ⟨k₁, hk₁⟩ : ∃ k₁, k₁ = (scheduler_create_task I k 0).2 := ⟨_, rfl⟩
  have hrun₁ : Run I k₁ (_ :: history) := .step (e := .createTask 0) h trivial (by rw [hk₁]; rfl)
  rcases scheduler_create_task_cases h.inv 0 with
    ⟨-, -, hfull⟩ | ⟨slot, m₂, b, task, hr, hc, -⟩
  · exact absurd ⟨1, hk.others 1 (by decide)⟩ hfull
  rw [← hk₁] at hc
  have hslot : slot ≠ 0 := by
    rintro rfl
    have hidle := hk.settled.idle
    rcases hc.free with hf | hf <;> rw [hf] at hidle <;> cases hidle
  have hset₁ : Settled k₁ := (hc.taskStep (e := .createTask 0) rfl rfl hr).settled hk.settled
  have howned₁ := (hc.handover h.inv).owns_nothing hk.owned
  have hstate : (k₁.tasks slot).state = .ready := by
    rw [hc.eq]
    exact (congrArg Task.state (Function.update_self ..)).trans hc.state
  have hother₁ : ∀ i ≠ slot, k₁.tasks i = k.tasks i := fun i hi => by
    rw [hc.eq]
    exact Function.update_of_ne hi ..
  have hcur₁ : k₁.currentTaskIndex = some 0 := by
    rw [hc.eq]
    exact hk.current
  have hnext₁ : k₁.nextPid = k.nextPid + 1 := by
    rw [hc.eq]
    exact Nat.mod_eq_of_lt hlt
  have hstop : ∀ i ≠ 0, i ≠ slot → runnable (k.tasks i).state = false := fun i hi _ => by
    rcases hk.others i hi with hf | hf <;> rw [hf] <;> rfl
  -- the tick that switches to it
  obtain ⟨k₂, hk₂⟩ : ∃ k₂, k₂ = (scheduler_on_timer_tick I k₁ 0).2 := ⟨_, rfl⟩
  have hs₂ : k₁.step I (.timerTick 0) = some (((scheduler_on_timer_tick I k₁ 0).1 : Int), k₂) := by
    rw [hk₂]
    rfl
  have hstep₂ := switches_taskStep hset₁ (e := .timerTick 0) rfl (fun hne => absurd rfl hne) hs₂
  have hset₂ := hstep₂.settled hset₁
  obtain ⟨_, hres₂, hnext₂⟩ := hstep₂.rescheduled rfl
  obtain ⟨hcur₂, hidle₂, hother₂⟩ := hres₂.only hcur₁ hslot (by rw [hstate]; rfl) fun i hi hr => by
    by_contra hne
    rw [hother₁ i hne, hstop i hi hne] at hr
    cases hr
  have hresched₂ : Reschedules k₁ k₂ := hk₂ ▸ scheduler_on_timer_tick_reschedules 0
  -- its exit
  obtain ⟨k₃, hk₃⟩ : ∃ k₃, k₃ = (scheduler_exit I k₂ 0).2 := ⟨_, rfl⟩
  have hs₃ : k₂.step I (.exit 0) = some (((scheduler_exit I k₂ 0).1 : Int), k₃) := by
    rw [hk₃]
    rfl
  have hstep₃ := switches_taskStep hset₂ (e := .exit 0) rfl
    (fun _ hcur => hslot (Option.some.inj (hcur₂.symm.trans hcur))) hs₃
  have hset₃ := hstep₃.settled hset₂
  obtain ⟨_, hres₃, hnext₃⟩ := hstep₃.rescheduled rfl
  obtain ⟨hcur₃, hdead₃, hother₃⟩ := hres₃.only hcur₂ hslot.symm hset₂.idle fun i hi hr => by
    by_contra hne
    rw [hother₂ i hne hi, hother₁ i hi, hstop i hne hi] at hr
    cases hr
  have hresched₃ : Reschedules k₂ k₃ :=
    hk₃ ▸ (Reschedules.setCurrentState .dead).trans (scheduler_on_timer_tick_reschedules 0)
  have hrun₂ : Run I k₂ _ := .step (e := .timerTick 0) hrun₁ trivial hs₂
  have howned₂ := (hresched₂.handover hrun₁.inv).owns_nothing howned₁
  refine ⟨k₃, _, .step (e := .exit 0) hrun₂ trivial hs₃, ⟨hset₃, hcur₃, fun i hi => ?_,
    (hresched₃.handover hrun₂.inv).owns_nothing howned₂, ?_⟩, ?_⟩
  · by_cases his : i = slot
    · rw [his]
      exact .inr hdead₃
    · rw [hother₃ i his hi, hother₂ i hi his, hother₁ i his]
      exact hk.others i hi
  · rw [hresched₃.memory, hresched₂.memory, (hc.handover h.inv).reserved]
    exact hk.reserved
  · rw [hnext₃, hnext₂, hnext₁]

/-- All pids up to a given one are issued. -/
theorem Calm.rounds (hk : Calm k) (h : Run I k history) (n : Nat) (hlt : k.nextPid + n < 2 ^ 32) :
    ∃ k' history', Run I k' history' ∧ Calm k' ∧ k'.nextPid = k.nextPid + n := by
  induction n with
  | zero => exact ⟨k, history, h, hk, rfl⟩
  | succ n ih =>
    obtain ⟨k₁, history₁, h₁, hk₁, hnext⟩ := ih (by omega)
    obtain ⟨k₂, history₂, h₂, hk₂, hnext₂⟩ := hk₁.round h₁ (by omega)
    exact ⟨k₂, history₂, h₂, hk₂, by omega⟩

/-- The state after the first tick. -/
theorem calm_of_boot (bytes : WordMemory) :
    ∃ k history, Run smallImage k history ∧ Calm k ∧ k.nextPid = 2 := by
  obtain ⟨b, -, he⟩ := boot_eq smallImage bytes
  obtain ⟨k, hk⟩ : ∃ k, k = boot smallImage bytes := ⟨_, rfl⟩
  have hrun : Run smallImage k [] := hk ▸ .boot bytes
  rw [← hk] at he
  have hset : Settled k := hk ▸ boot_settled bytes
  obtain ⟨k', hk'⟩ : ∃ k', k' = (scheduler_on_timer_tick smallImage k 0).2 := ⟨_, rfl⟩
  have hs : k.step smallImage (.timerTick 0) =
      some (((scheduler_on_timer_tick smallImage k 0).1 : Int), k') := by
    rw [hk']
    rfl
  have hstep := switches_taskStep hset (e := .timerTick 0) rfl (fun hne => absurd rfl hne) hs
  obtain ⟨_, hres, hnext⟩ := hstep.rescheduled rfl
  have hresched : Reschedules k k' := hk' ▸ scheduler_on_timer_tick_reschedules 0
  have hnone : k.currentTaskIndex = none := by rw [he]
  have hfirst : k'.currentTaskIndex = some 0 ∧ ∀ i ≠ 0, k'.tasks i = k.tasks i := by
    cases hres with
    | first _ hcur htasks => exact ⟨hcur, fun i hi => by rw [htasks, Function.update_of_ne hi]⟩
    | stay c hcur => rw [hnone] at hcur; cases hcur
    | switch c n hcur => rw [hnone] at hcur; cases hcur
  have hunused : ∀ i ≠ 0, (k.tasks i).state = .unused := fun i hi => by
    rw [he]
    dsimp only
    rw [Function.update_of_ne hi]
  refine ⟨k', _, .step (e := .timerTick 0) hrun trivial hs, ⟨hstep.settled hset, hfirst.1,
    fun i hi => ?_, (hresched.handover hrun.inv).owns_nothing fun o ho => ?_, ?_⟩, ?_⟩
  · rw [hfirst.2 i hi]
    exact .inl (hunused i hi)
  · rw [hk]
    exact boot_owned smallImage bytes ho
  · rw [hresched.memory, he]
    dsimp only
    exact smallImage_reserved bytes
  · rw [hnext, he]

/-- With 3584 free pages. -/
theorem Calm.free (hk : Calm k) (hi : Inv I k) : 4 ≤ memory_free_pages k.memory := by
  have hfree : ∀ p < 4096, 512 ≤ p → p ∈ k.memory.freePages := fun p hp hlo => by
    refine mem_freePages.mpr ⟨hp, Bool.eq_false_iff.mpr fun hused => ?_⟩
    obtain ⟨o, ho⟩ := (hi.used p hp).mp hused
    by_cases hkernel : o = .kernel
    · rw [hkernel, ownedBy, hk.reserved, List.mem_map] at ho
      obtain ⟨q, hq, heq⟩ := ho
      have := List.mem_range.mp hq
      omega
    · rw [hk.owned o hkernel] at ho
      exact List.not_mem_nil ho
  rw [memory_free_pages_eq hi.accounts]
  refine le_of_eq_of_le (show 4 = (Finset.range 4).card by decide) ?_
  refine Finset.card_le_card_of_injOn (· + 512) (fun p hp => ?_) fun p _ q _ => Nat.add_right_cancel
  have hlt : p < 4 := Finset.mem_range.mp hp
  exact hfree (p + 512) (by omega) (by omega)

end

/-- A creation returns -1, and a slot has a new task with its pages. -/
theorem pid_wrap : ¬ ∀ (I : KernelImage) (k : Kernel) (history : List Step), Run I k history →
    Accounted k ∧ Isolated k ∧ ∀ s ∈ history, s.keepsOwners := by
  intro hall
  obtain ⟨k₀, history₀, h₀, hk₀, hnext₀⟩ := calm_of_boot fun _ => 0
  obtain ⟨k, history, h, hk, hnext⟩ := hk₀.rounds h₀ (2 ^ 32 - 3) (by omega)
  obtain ⟨r, k', hcall⟩ : ∃ r k', scheduler_create_user_task smallImage k [] = (r, k') :=
    ⟨_, _, Prod.mk.eta.symm⟩
  have hstep : k.step smallImage (.createUserTask []) = some (r, k') := congrArg some hcall
  have hkeeps := (hall smallImage k' _ (.step (e := .createUserTask []) h trivial hstep)).2.2 _ (List.mem_cons_self ..)
  rcases scheduler_create_user_task_cases h.inv [] with
    ⟨-, -, hroom⟩ | ⟨slot, m₁, m₂, held, b, task, hr, hc, huser, -⟩
  · exact hroom ⟨by decide, ⟨1, hk.others 1 (by decide)⟩, hk.free h.inv⟩
  rw [hcall] at hr hc
  have hresult : r = -1 := by
    rw [show r = toInt32 k.nextPid from hr, hnext, hnext₀]
    decide
  have hsame := hkeeps.failed rfl hresult (.directory slot)
  dsimp only at hsame
  rw [hk.owned (.directory slot) nofun] at hsame
  have hdir : ownedBy k' (.directory slot) = [task.addressSpace] := by
    have htask : k'.tasks slot = task := by
      rw [show k' = k.install slot { m₂ with bytes := b } task from hc.eq]
      exact Function.update_self ..
    rw [ownedBy, htask, Task.directory, if_pos huser]
  rw [hdir] at hsame
  cases hsame

end Os
end Techuila
