import SsaIr.Machine.Run
import SsaIr.Proofs.Machine.Instructions
import SsaIr.Proofs.Verify.Upkeep

/-!
# Verified code does not get stuck

A machine that runs functions of a verified module keeps its frames steady and what waits for
results waits for results that fit, whatever the host functions do that keep to the module. So no
step of its own gets stuck on a missing value or place, and the kinds of runtime values follow
static types. Read `HostTask.Keeps`, `Machine.Sane` and `Machine.Raises` first, then
`Machine.sane_next` and `Machine.tame_of_raises`.
-/

namespace SsaIr

variable {σ : Type} {r : Except Failure RuntimeValue} {v : RuntimeValue}

def Failure.IsStuck : Failure → Prop
  | .fault f => f.cause.IsStuck
  | _ => False

/-! ## Host functions -/

/-- What host functions keep to: they call functions of a module, hand on values and failures of
classes, and keep an invariant of the state that they share. -/
structure Terms (σ : Type) where
  module : ModuleId
  good : RuntimeValue → Prop
  fine : Failure → Prop
  state : σ → Prop

/-- A value of a class, or a failure that the terms admit. -/
structure Terms.Admits {α : Type} (L : Terms σ) (Q : α → Prop) (r : Except Failure α) : Prop where
  value : ∀ a, r = .ok a → Q a
  failure : ∀ e, r = .error e → L.fine e

namespace Terms.Admits

variable {α : Type} {L : Terms σ} {Q : α → Prop}

theorem ok {a : α} (ha : Q a) : L.Admits Q (.ok a) :=
  ⟨by rintro _ ⟨⟩; exact ha, nofun⟩

theorem error {e : Failure} (he : L.fine e) : L.Admits Q (.error e) :=
  ⟨nofun, by rintro _ ⟨⟩; exact he⟩

end Terms.Admits

/-- The task keeps to the terms as long as it is answered in keeping with them. Host functions that
it registers do too. -/
def HostTask.Keeps (c : Context) (L : Terms σ) : HostTask σ → Prop
  | .done r => L.Admits L.good r
  | .stop _ => True
  | .getState k => ∀ s, L.state s → (k s).Keeps c L
  | .setState s k => L.state s ∧ k.Keeps c L
  | .print _ k => k.Keeps c L
  | .read _ _ k => ∀ r, L.Admits (fun _ => True) r → (k r).Keeps c L
  | .write _ _ k => ∀ r, L.Admits (fun _ => True) r → (k r).Keeps c L
  | .readText _ k => ∀ r, L.Admits (fun _ => True) r → (k r).Keeps c L
  | .load _ _ k => ∀ r, L.Admits L.good r → (k r).Keeps c L
  | .store _ _ _ k => ∀ r, L.Admits (fun _ => True) r → (k r).Keeps c L
  | .alloc _ _ k => ∀ r, L.Admits (fun _ => True) r → (k r).Keeps c L
  | .functionAt _ k =>
    ∀ r, L.Admits (· ∈ (c.module L.module).functions) r → (k r).Keeps c L
  | .call f args k | .run f args k =>
    f ∈ (c.module L.module).functions ∧ (∀ v ∈ args, L.good v) ∧
      ∀ r, L.Admits L.good r → (k r).Keeps c L
  | .register _ h k =>
    (∀ call : HostCall, (∀ v ∈ call.args, L.good v) → (h call).Keeps c L) ∧ k.Keeps c L
  | .close k => k.Keeps c L

def HostFunction.Keeps (c : Context) (L : Terms σ) (h : HostFunction σ) : Prop :=
  ∀ call : HostCall, (∀ v ∈ call.args, L.good v) → (h call).Keeps c L

/-- What is assumed of a program and of the terms that host functions keep to. -/
structure Regime (c : Context) (L : Terms σ) : Prop where
  accepted : c.Accepted L.module
  canonical : ∀ v : RuntimeValue, v.Canonical → L.good v
  /-- Every failure that is not to be excluded is admitted. -/
  failures : ∀ e : Failure, (c.StoresValues L.module → ¬ e.IsStuck) → L.fine e
  leaving : ∀ (e : Failure) name, L.fine e → L.fine (e.leaving name)

/-- The interpreter has given addresses to functions of the module only, and its host functions keep
to the terms. -/
structure Interpreter.Sane (c : Context) (L : Terms σ) (i : Interpreter σ) : Prop where
  names : Frame.Named c L.module i.store
  hosts : ∀ name h, i.hosts name = some h → h.Keeps c L
  state : L.state i.state

namespace Interpreter.Sane

variable {c : Context} {L : Terms σ} {i : Interpreter σ}

theorem register (hi : i.Sane c L) {h : HostFunction σ} (hh : h.Keeps c L) (name : String) :
    (i.register name h).Sane c L := by
  refine { hi with hosts := fun n h' hn => ?_ }
  unfold Interpreter.register at hn
  dsimp only at hn
  split at hn
  · cases hn
    exact hh
  · exact hi.hosts n h' hn

theorem close (hi : i.Sane c L) : ({ i with store := i.store.close } : Interpreter σ).Sane c L := by
  refine { hi with names := ?_ }
  dsimp only [Store.close]
  split
  · exact hi.names
  · exact fun n f hf => by simp at hf

end Interpreter.Sane

/-! ## Machines -/

/-- What waits for a result that fits a type; in the end there is one that fits another type. -/
inductive Awaits (env : Environment) (L : Terms σ) (last : Ty) : List (Waiting σ) → Ty → Prop where
  | nil : Awaits env L last [] last
  | frame {fr i f a rest} : Frame.Ready env L.module f a L.good fr i →
      (env.context.inst i).isTerminator = false →
      Awaits env L last rest (env.context.func f).ret →
      Awaits env L last (.frame fr i :: rest) (env.context.inst i).type
  | host {f k rest t} :
      (∀ r : Except Failure RuntimeValue, L.Admits L.good r → (k r).Keeps env.context L) →
      Awaits env L last rest (env.context.func f).ret →
      Awaits env L last (.host f k :: rest) t

def Control.Sane (env : Environment) (L : Terms σ) (last : Ty) (waiting : List (Waiting σ)) :
    Control σ → Prop
  | .execute fr => ∃ f a, f ∈ (env.context.module L.module).functions ∧ env.context.Vetted f a ∧
      fr.Steady env.context f a L.good ∧ Awaits env L last waiting (env.context.func f).ret
  | .call g args => env.context.Takes L.module L.good g args ∧
      Awaits env L last waiting (env.context.func g).ret
  | .serve g task => task.Keeps env.context L ∧
      Awaits env L last waiting (env.context.func g).ret
  | .deliver r => ∃ t, L.Admits (·.Fits L.good t) r ∧ Awaits env L last waiting t
  | .finished r => L.Admits (·.Fits L.good last) r ∧ waiting = []
  | .broken _ => waiting = []

/-- The invariant of machines that run functions of a verified module. -/
structure Machine.Sane (env : Environment) (L : Terms σ) (last : Ty) (M : Machine σ) : Prop where
  base : M.toInterpreter.Sane env.context L
  control : M.control.Sane env L last M.waiting

/-- The next step of a machine stops on its own account: at an instruction, or where a block is
entered. What host functions and callees fail with is not raised but passed on. -/
inductive Machine.Raises (env : Environment) (M : Machine σ) : Stop → Prop where
  | openBlock {fr} : M.control = .execute fr →
      (env.context.block fr.block).insts[fr.position]? = none →
      Raises env M (.failure (.raise (.openBlock (env.context.block fr.block).name)))
  | instruction {fr i e s} : M.control = .execute fr →
      (env.context.block fr.block).insts[fr.position]? = some i →
      fr.run env i M.store = .error e s → Raises env M e
  | phis {fr i b s e s'} : M.control = .execute fr →
      (env.context.block fr.block).insts[fr.position]? = some i →
      fr.run env i M.store = .ok (.jump b) s →
      { fr with previous := some fr.block }.enter env b s = .error e s' → Raises env M e
  | entry {f args b e s} : M.control = .call f args →
      (env.context.func f).blocks[0]? = some b →
      Frame.enter env
        { func := f
          block := b
          args := ((env.context.func f).args.toList.zip args).foldl
            (fun t q => t.insert q.1.index q.2) {}
          stack := .limited env.stackLimit } b M.store = .error e s → Raises env M e

namespace Machine

variable {env : Environment} {last t : Ty} {M : Machine σ} {L : Terms σ} {fr : Frame}
  {e : Stop} {n : Nat} {c : Context} {g : FuncId} {args : List RuntimeValue}

theorem names_releaseWaiting {s : Store} (hs : Frame.Named env.context L.module s)
    (l : List (Waiting σ)) :
    Frame.Named env.context L.module (releaseWaiting s l) := by
  induction l generalizing s with
  | nil => exact hs
  | cons w l ih =>
    cases w with
    | frame fr i => exact ih (hs.congr rfl)
    | host f k => exact ih hs

theorem sane_halt (hs : M.toInterpreter.Sane env.context L) (b : Breakdown) :
    (M.halt b).Sane env L last :=
  ⟨{ hs with names := names_releaseWaiting hs.names _ }, rfl⟩

theorem sane_leave (hs : M.toInterpreter.Sane env.context L)
    (hr : L.Admits (·.Fits L.good t) r) (hwait : Awaits env L last M.waiting t) :
    (M.leave fr r).Sane env L last :=
  ⟨{ hs with names := hs.names.congr rfl }, t, hr, hwait⟩

theorem fine_of_tame (h : Regime env.context L) {x : Failure}
    (hx : Stop.Tame (env.context.StoresValues L.module) (.failure x)) : L.fine x := by
  refine h.failures x fun hstores hstuck => ?_
  cases x with
  | fault f => exact (hx f rfl).2 hstores hstuck
  | _ => exact hstuck

/-! ## What is not stuck -/

def Unstuck (e : Stop) : Prop := ∀ x, e = .failure x → ¬ x.IsStuck

theorem unstuck_of_tame (h : e.Tame True) : Unstuck e := by
  rintro (f | _ | _ | _ | _) rfl
  · exact (h f rfl).2 trivial
  all_goals exact id

theorem unstuck_of_address {α : Type} {r : Except MemoryError α}
    (h : r.mapError Stop.ofAddress = .error e) : Unstuck e := by
  cases r with
  | ok a => cases h
  | error e' =>
    cases h
    exact unstuck_of_tame (Stop.tame_ofAddress e')

theorem text_unstuck {s : Space} {start address : UInt64}
    (h : s.text start n address = .error e) : Unstuck e := by
  induction n generalizing address e with
  | zero =>
    cases h
    exact unstuck_of_tame (Stop.tame_raise nofun id)
  | succ n ih =>
    unfold Space.text at h
    cases hread : s.read address 1 with rw [hread] at h
    | error e' =>
      cases h
      exact unstuck_of_tame (Stop.tame_ofAddress e')
    | ok bytes =>
      simp only [Except.mapError, bind, Except.bind] at h
      split at h
      · split at h
        · cases h
        · cases htext : s.text start n (address + 1) with rw [htext] at h
          | error e' =>
            cases h
            exact ih htext
          | ok bs => cases h
      · cases h

theorem store_unstuck {s : Space} {d : DataLayout} {address : UInt64}
    (h : s.store d address t v = .error e) : Unstuck e := by
  rw [Space.store_eq] at h
  split at h
  · cases h
    exact unstuck_of_tame (Stop.tame_raise nofun id)
  · split at h
    · cases h
      rintro x hx hstuck
      cases hx
      exact hstuck
    · split at h
      · cases h
        exact unstuck_of_tame (Stop.tame_breakdown _)
      · exact unstuck_of_address h

theorem checkKinds_ok {func : String} {ts : List Ty} {vs : List RuntimeValue}
    (h : checkKinds func n ts vs = .ok ()) {k : Nat} (ht : ts[k]? = some t)
    (hv : vs[k]? = some v) : v.Suits t := by
  induction ts generalizing n vs k with
  | nil => cases ht
  | cons u ts ih =>
    cases vs with
    | nil => cases hv
    | cons w vs =>
      unfold checkKinds at h
      split at h
      · cases h
      · rename_i hkind
        cases k with
        | zero =>
          cases ht
          cases hv
          exact RuntimeValue.suits_of_kind hkind
        | succ k => exact ih h ht hv

theorem checkKinds_unstuck {func : String} {ts : List Ty} {vs : List RuntimeValue} {x : Failure}
    (h : checkKinds func n ts vs = .error x) : ¬ x.IsStuck := by
  induction ts generalizing n vs with
  | nil => cases h
  | cons u ts ih =>
    cases vs with
    | nil => cases h
    | cons w vs =>
      unfold checkKinds at h
      split at h
      · cases h
        exact id
      · exact ih h

theorem takes_of_checkArgs {m : ModuleId} {good : RuntimeValue → Prop}
    (h : checkArgs c g args = .ok ()) (hmem : g ∈ (c.module m).functions)
    (hgood : ∀ v ∈ args, good v) : c.Takes m good g args := by
  unfold checkArgs at h
  dsimp only at h
  split at h
  · cases h
  · rename_i sig hsig
    split at h
    · cases h
    · rename_i hcount
      simp only [Bool.or_eq_true, decide_eq_true_eq, not_or, Nat.not_lt] at hcount
      cases hkinds : checkKinds (c.func g).name 0 sig.params args with
      | error e => rw [hkinds] at h; cases h
      | ok u =>
        refine ⟨hmem, ?_, ?_, hgood⟩
        · intro sig' hsig'
          cases hsig.symm.trans hsig'
          exact hcount.1
        · intro sig' k t v hsig' ht hv
          cases hsig.symm.trans hsig'
          exact checkKinds_ok hkinds ht hv

theorem checkArgs_unstuck (h : checkArgs c g args = .error e) : Unstuck e := by
  unfold checkArgs at h
  dsimp only at h
  split at h
  · cases h
    exact unstuck_of_tame (Stop.tame_breakdown _)
  · split at h
    · cases h
      rintro x hx
      cases hx
      exact id
    · cases hkinds : checkKinds (c.func g).name 0 _ args with rw [hkinds] at h
      | ok u => cases h
      | error e' =>
        cases h
        rintro x hx
        cases hx
        exact checkKinds_unstuck hkinds

theorem admits_hostResult (h : Regime env.context L) (hr : L.Admits L.good r) :
    L.Admits (·.Fits L.good (env.context.func g).ret) (hostResult env.context g r) := by
  cases r with
  | error e => exact .error (hr.failure e rfl)
  | ok v =>
    unfold hostResult
    dsimp only
    split
    · exact .ok ⟨RuntimeValue.suits_undef _, h.canonical _ RuntimeValue.canonical_undef⟩
    · split
      · exact .error (h.failures _ fun _ => id)
      · rename_i hkind
        exact .ok ⟨RuntimeValue.suits_of_kind hkind, hr.value v rfl⟩

/-! ## Steps -/

section Steps

variable (h : Regime env.context L) (hs : M.toInterpreter.Sane env.context L)
include h hs

theorem sane_abandon (hwait : Awaits env L last M.waiting t) {e : Stop}
    (he : ∀ x, e = .failure x → L.fine x) : (abandon env M fr e).Sane env L last := by
  cases e with
  | failure x => exact sane_leave hs (.error (h.leaving x _ (he x rfl))) hwait
  | breakdown b =>
    exact sane_halt (M := { M with store := fr.release M.store })
      { hs with names := hs.names.congr rfl } b

theorem sane_enter {f : FuncId} {a : FlowAnalysis}
    (hf : f ∈ (env.context.module L.module).functions)
    (hc : env.context.Vetted f a) {b : BlockId}
    (hmeets : EStateM.Meets (Frame.Named env.context L.module)
      (Stop.Tame (env.context.StoresValues L.module))
      (fr.enter env b) (Frame.Steady env.context f a L.good))
    (hwait : Awaits env L last M.waiting (env.context.func f).ret) :
    (enter env M fr b).Sane env L last := by
  obtain ⟨hok, herror⟩ := hmeets M.store hs.names
  unfold enter
  split
  · rename_i fr' store hrun
    obtain ⟨hs', hfr'⟩ := hok fr' store hrun
    exact ⟨{ hs with names := hs' }, f, a, hf, hc, hfr', hwait⟩
  · rename_i e store hrun
    obtain ⟨hs', he⟩ := herror e store hrun
    exact sane_abandon (M := { M with store }) h { hs with names := hs' } hwait
      fun x hx => fine_of_tame h (hx ▸ he)

theorem sane_execute {f : FuncId} {a : FlowAnalysis}
    (hf : f ∈ (env.context.module L.module).functions)
    (hc : env.context.Vetted f a) (hfr : fr.Steady env.context f a L.good)
    (hwait : Awaits env L last M.waiting (env.context.func f).ret) :
    (execute env M fr).Sane env L last := by
  have hget := Array.getElem?_eq_getElem hfr.lt_size
  have hready : Frame.Ready env L.module f a L.good fr _ :=
    ⟨h.canonical, h.accepted, hf, hc, hfr, hget⟩
  obtain ⟨hok, herror⟩ := Frame.run_meets hready M.store hs.names
  unfold execute
  rw [hget]
  dsimp only
  split
  · rename_i e store hrun
    obtain ⟨hs', he⟩ := herror e store hrun
    exact sane_abandon (M := { M with store }) h { hs with names := hs' } hwait
      fun x hx => fine_of_tame h (hx ▸ he)
  · rename_i effect store hrun
    obtain ⟨hnames, heffect⟩ := hok effect store hrun
    have hs' : ({ M with store } : Machine σ).toInterpreter.Sane env.context L :=
      { hs with names := hnames }
    cases effect with
    | advance fr' => exact ⟨hs', f, a, hf, hc, heffect, hwait⟩
    | jump b =>
      obtain ⟨hterm, hpass⟩ := heffect
      exact sane_enter (M := { M with store }) h hs' hf hc
        (Frame.enter_meets h.canonical h.accepted hf hc hfr hget hterm hpass) hwait
    | leave v => exact sane_leave hs' (.ok heffect) hwait
    | call g args =>
      obtain ⟨htakes, hret, hterm⟩ := heffect
      refine ⟨hs', htakes, ?_⟩
      rw [hret]
      exact .frame hready hterm hwait

theorem sane_call (hargs : env.context.Takes L.module L.good g args)
    (hwait : Awaits env L last M.waiting (env.context.func g).ret) :
    (call env M g args).Sane env L last := by
  have hfail : ∀ {x : Failure}, ¬ x.IsStuck →
      ({ M with control := .deliver (.error x) } : Machine σ).Sane env L last :=
    fun {x} hx => ⟨hs, _, .error (h.failures x fun _ => hx), hwait⟩
  unfold call
  dsimp only
  split
  · split
    · exact hfail id
    · rename_i host hhost
      exact ⟨hs, hs.hosts _ host hhost _ hargs.good, hwait⟩
  · rename_i entry hentry
    split
    · exact hfail id
    · split
      · exact sane_halt hs _
      · obtain ⟨a, hc⟩ := h.accepted.checked hargs.mem hentry
        exact sane_enter (M := { M with depth := M.depth + 1 }) h hs hargs.mem hc
          (Frame.start_meets h.accepted hc hargs hentry rfl rfl rfl) hwait

theorem sane_deliver (hr : L.Admits (·.Fits L.good t) r)
    (hwait : Awaits env L last M.waiting t) :
    (deliver env M r).Sane env L last := by
  unfold deliver
  generalize M.waiting = waiting at hwait
  cases hwait with
  | nil => exact ⟨hs, hr, rfl⟩
  | host hk hrest =>
    exact ⟨hs, hk r ⟨fun v hv => (hr.value v hv).2, hr.failure⟩, hrest⟩
  | @frame fr i f a rest hready hterm hrest =>
    cases r with
    | error e =>
      refine sane_abandon (M := { M with waiting := rest }) h hs hrest fun x hx => ?_
      cases hx
      exact hr.failure e rfl
    | ok v =>
      refine ⟨hs, f, a, hready.mem, hready.checked, ?_, hrest⟩
      split
      · rename_i hvoid
        exact hready.steady.skip hready.checked hready.get hterm (Ty.isVoid_iff.mp hvoid)
      · exact hready.steady.bind hready.checked hready.get hterm (hr.value v rfl)

section Answers

variable {α : Type} {g : FuncId} {k : Except Failure α → HostTask σ} {Q : α → Prop}
  (hk : ∀ r, L.Admits Q r → (k r).Keeps env.context L)
  (hwait : Awaits env L last M.waiting (env.context.func g).ret)
include hk hwait

theorem sane_answer {r : Except Stop α} (hok : ∀ a, r = .ok a → Q a)
    (herror : ∀ e, r = .error e → Unstuck e) : (answer M g k r).Sane env L last := by
  cases r with
  | ok a => exact ⟨hs, hk (.ok a) (.ok (hok a rfl)), hwait⟩
  | error e =>
    cases e with
    | failure x =>
      exact ⟨hs, hk (.error x) (.error (h.failures x fun _ => herror _ rfl x rfl)), hwait⟩
    | breakdown b => exact sane_halt hs b

theorem sane_answerAccess {x : Access α}
    (hx : EStateM.Meets (Frame.Named env.context L.module) Unstuck x Q) :
    (answerAccess M g k x).Sane env L last := by
  obtain ⟨hok, herror⟩ := hx M.store hs.names
  unfold answerAccess
  split
  · rename_i a store hrun
    obtain ⟨hs', ha⟩ := hok a store hrun
    refine sane_answer (M := { M with store }) h { hs with names := hs' } hk hwait
      (fun b hb => ?_) nofun
    cases hb
    exact ha
  · rename_i e store hrun
    obtain ⟨hs', he⟩ := herror e store hrun
    refine sane_answer (M := { M with store }) h { hs with names := hs' } hk hwait nofun
      fun e' he' => ?_
    cases he'
    exact he

end Answers

theorem sane_callBack {k : Except Failure RuntimeValue → HostTask σ} {f : FuncId}
    (hf : f ∈ (env.context.module L.module).functions) (hargs : ∀ v ∈ args, L.good v)
    (hk : ∀ r, L.Admits L.good r → (k r).Keeps env.context L)
    (hwait : Awaits env L last M.waiting (env.context.func g).ret) (depth : Int) :
    (callBack env M g depth f args k).Sane env L last := by
  unfold callBack
  split
  · rename_i e hcheck
    refine sane_answer h hs hk hwait nofun fun e' he' => ?_
    cases he'
    exact checkArgs_unstuck hcheck
  · rename_i hcheck
    exact ⟨hs, takes_of_checkArgs hcheck hf hargs, .host hk hwait⟩

theorem sane_serve {task : HostTask σ} (htask : task.Keeps env.context L)
    (hwait : Awaits env L last M.waiting (env.context.func g).ret) :
    (serve env M g task).Sane env L last := by
  cases task with
  | done r => exact ⟨hs, _, admits_hostResult h htask, hwait⟩
  | stop b => exact sane_halt hs b
  | getState k => exact ⟨hs, htask _ hs.state, hwait⟩
  | setState s k => exact ⟨{ hs with state := htask.1 }, htask.2, hwait⟩
  | print text k => exact ⟨{ hs with names := hs.names.congr rfl }, htask, hwait⟩
  | read address length k =>
    exact sane_answer (Q := fun _ => True) h hs htask hwait
      (fun _ _ => trivial) fun e => unstuck_of_address
  | write address bytes k =>
    refine sane_answerAccess (Q := fun _ => True) h hs htask hwait ?_
    exact .bind .get fun s _ =>
      .bind (Access.ofExcept_meets (fun _ _ => trivial) fun e => unstuck_of_address)
      fun space _ => .modify fun s hs => hs.congr rfl
  | readText address k =>
    refine sane_answer (Q := fun _ => True) h hs htask hwait
      (fun _ _ => trivial) fun e he => ?_
    cases htext : M.store.space.text address maxText address with rw [htext] at he
    | ok bytes => cases he
    | error e' => cases he; exact text_unstuck htext
  | load address t k =>
    exact sane_answer h hs htask hwait (fun v hv => h.canonical v (Space.load_ok hv).2)
      fun e he => unstuck_of_tame (Space.load_tame he)
  | store address t v k =>
    refine sane_answerAccess (Q := fun _ => True) h hs htask hwait ?_
    exact .bind .get fun s _ => .bind (Access.ofExcept_meets (fun _ _ => trivial)
      fun e he => store_unstuck he) fun space _ => .modify fun s hs => hs.congr rfl
  | alloc size align k =>
    refine sane_answerAccess (Q := fun _ => True) h hs htask hwait ?_
    refine .bind ((Access.alloc_meets (p := True) _ _).monoStop fun e => unstuck_of_tame)
      fun r _ => ?_
    split
    · exact .pure trivial
    · exact .throw (unstuck_of_tame (Stop.tame_memory _))
  | functionAt address k =>
    exact sane_answerAccess h hs htask hwait
      ((Access.functionAtAddress_meets (p := True) _).monoStop fun e => unstuck_of_tame)
  | call f args k =>
    obtain ⟨hf, hargs, hk⟩ := htask
    exact sane_callBack h hs hf hargs hk hwait _
  | run f args k =>
    obtain ⟨hf, hargs, hk⟩ := htask
    rw [serve]
    split
    · refine sane_answer h hs hk hwait nofun fun e he => ?_
      cases he
      exact unstuck_of_tame (Stop.tame_of_ne nofun)
    · exact sane_callBack h hs hf hargs hk hwait 0
  | register name f k => exact ⟨hs.register htask.1 name, htask.2, hwait⟩
  | close k => exact ⟨hs.close, htask, hwait⟩

end Steps

theorem sane_next (h : Regime env.context L) (hM : M.Sane env L last) :
    (next env M).Sane env L last := by
  obtain ⟨hs, hcontrol⟩ := hM
  unfold next
  split <;> rename_i heq <;> rw [heq] at hcontrol
  · obtain ⟨f, a, hf, hc, hfr, hwait⟩ := hcontrol
    exact sane_execute h hs hf hc hfr hwait
  · exact sane_call h hs hcontrol.1 hcontrol.2
  · exact sane_serve h hs hcontrol.1 hcontrol.2
  · obtain ⟨t, hr, hwait⟩ := hcontrol
    exact sane_deliver h hs hr hwait
  · exact ⟨hs, by rw [heq]; exact hcontrol⟩
  · exact ⟨hs, by rw [heq]; exact hcontrol⟩

theorem sane_run (h : Regime env.context L) (n : Nat) (hM : M.Sane env L last) :
    (run env n M).Sane env L last := by
  induction n generalizing M with
  | zero => exact hM
  | succ n ih =>
    unfold run
    split
    · exact hM
    · exact ih (sane_next h hM)

theorem tame_of_raises (h : Regime env.context L) (hM : M.Sane env L last)
    (he : Raises env M e) : e.Tame (env.context.StoresValues L.module) := by
  obtain ⟨hs, hcontrol⟩ := hM
  cases he with
  | openBlock hexec hnone =>
    rw [hexec] at hcontrol
    obtain ⟨f, a, -, -, hfr, -⟩ := hcontrol
    rw [Array.getElem?_eq_getElem hfr.lt_size] at hnone
    cases hnone
  | instruction hexec hget hrun =>
    rw [hexec] at hcontrol
    obtain ⟨f, a, hf, hc, hfr, -⟩ := hcontrol
    exact ((Frame.run_meets ⟨h.canonical, h.accepted, hf, hc, hfr, hget⟩ _ hs.names).2 _ _ hrun).2
  | phis hexec hget hrun henter =>
    rw [hexec] at hcontrol
    obtain ⟨f, a, hf, hc, hfr, -⟩ := hcontrol
    obtain ⟨hs', hterm, hpass⟩ :=
      (Frame.run_meets ⟨h.canonical, h.accepted, hf, hc, hfr, hget⟩ _ hs.names).1 _ _ hrun
    exact ((Frame.enter_meets h.canonical h.accepted hf hc hfr hget hterm hpass _ hs').2 _ _
      henter).2
  | @entry g args b e s hcall hentry henter =>
    rw [hcall] at hcontrol
    obtain ⟨hargs, -⟩ := hcontrol
    obtain ⟨a, hc⟩ := h.accepted.checked hargs.mem hentry
    exact ((Frame.start_meets h.accepted hc hargs hentry rfl rfl rfl _ hs.names).2 _ _ henter).2

theorem sane_start {i : Interpreter σ} (hi : i.Sane env.context L)
    (hargs : env.context.Takes L.module L.good g args) :
    Sane env L (env.context.func g).ret { i with control := .call g args } :=
  ⟨hi, hargs, .nil⟩

/-- The frames of a machine: of what is executed and of what waits. -/
def frames (M : Machine σ) : List Frame :=
  (match M.control with
    | .execute fr => [fr]
    | _ => []) ++ M.waiting.filterMap fun
      | .frame fr _ => some fr
      | .host .. => none

theorem fits_of_lookup {good : RuntimeValue → Prop} {f : FuncId} {a : FlowAnalysis}
    (hfr : fr.Steady c f a good) {v : Value}
    {r : RuntimeValue} (hr : fr.lookup? v = some r) : ∃ t, c.typeOf v = some t ∧ r.Fits good t := by
  cases v with
  | arg x => exact hfr.arg_fits hr
  | inst d => exact ⟨_, rfl, hfr.inst_fits hr⟩
  | _ => cases hr

theorem steady_of_awaits {waiting : List (Waiting σ)} (h : Awaits env L last waiting t)
    {i : InstId} (hfr : .frame fr i ∈ waiting) : ∃ f a, fr.Steady env.context f a L.good := by
  induction h with
  | nil => cases hfr
  | host _ _ ih => exact ih ((List.mem_cons.mp hfr).resolve_left nofun)
  | @frame fr' i' f a rest hready _ _ ih =>
    rcases List.mem_cons.mp hfr with heq | hfr
    · cases heq
      exact ⟨f, a, hready.steady⟩
    · exact ih hfr

theorem awaits_of_sane {waiting : List (Waiting σ)} {k : Control σ}
    (h : k.Sane env L last waiting) : ∃ t, Awaits env L last waiting t := by
  cases k with
  | execute fr =>
    obtain ⟨f, a, -, -, -, hwait⟩ := h
    exact ⟨_, hwait⟩
  | call g args => exact ⟨_, h.2⟩
  | serve g task => exact ⟨_, h.2⟩
  | deliver r => exact h.imp fun _ => And.right
  | finished r => exact ⟨last, h.2 ▸ .nil⟩
  | broken b => exact ⟨last, (show waiting = [] from h) ▸ .nil⟩

theorem steady_of_mem_frames (hM : M.Sane env L last)
    (hfr : fr ∈ M.frames) : ∃ f a, fr.Steady env.context f a L.good := by
  obtain ⟨-, hcontrol⟩ := hM
  rcases List.mem_append.mp hfr with hfr | hfr
  · cases hM : M.control with
    | execute fr' =>
      rw [hM] at hcontrol hfr
      obtain rfl := List.mem_singleton.mp hfr
      obtain ⟨f, a, -, -, hsteady, -⟩ := hcontrol
      exact ⟨f, a, hsteady⟩
    | _ =>
      rw [hM] at hfr
      exact absurd hfr List.not_mem_nil
  · obtain ⟨w, hw, heq⟩ := List.mem_filterMap.mp hfr
    cases w with
    | host f k => cases heq
    | frame fr' i =>
      cases heq
      obtain ⟨t, hwait⟩ := awaits_of_sane hcontrol
      exact steady_of_awaits hwait hw

end Machine

/-! ## Interpreters -/

/-- The interpreter was used for functions of a module only, with values of a class, and with host
functions that keep to the terms. The state that these share may also change between runs. -/
inductive Interpreter.Confined (c : Context) (L : Terms σ) : Interpreter σ → Prop where
  | fresh {hosts state} : (∀ name h, hosts name = some h → HostFunction.Keeps c L h) →
      L.state state → Confined c L { hosts, state }
  | register {i name h} : Confined c L i → HostFunction.Keeps c L h →
      Confined c L (i.register name h)
  | change {i state} : Confined c L i → L.state state → Confined c L { i with state }
  | run {env i fuel f args} : Confined c L i → env.context = c →
      f ∈ (c.module L.module).functions → (∀ v ∈ args, L.good v) →
      Confined c L (i.run env fuel f args).2
  | close {i} : Confined c L i → Confined c L i.close
  | takeOutput {i} : Confined c L i → Confined c L i.takeOutput.2

namespace Interpreter

variable {c : Context} {L : Terms σ} {i : Interpreter σ}

theorem Confined.sane (h : Regime c L) (hi : i.Confined c L) : i.Sane c L := by
  induction hi with
  | fresh hhosts hstate => exact ⟨fun n f hf => by simp at hf, hhosts, hstate⟩
  | register _ hh ih => exact ih.register hh _
  | change _ hstate ih => exact { ih with state := hstate }
  | @run env i fuel f args _ hc hf hargs ih =>
    subst hc
    unfold Interpreter.run
    split
    · exact ih
    · split
      · exact ih
      · exact ih
      · rename_i u hcheck
        exact (Machine.sane_run h fuel
          (Machine.sane_start ih (Machine.takes_of_checkArgs hcheck hf hargs))).base
  | close _ ih => exact ih.close
  | takeOutput _ ih => exact { ih with names := ih.names.congr rfl }

end Interpreter

/-- A function that keeps an argument in memory, hands it to a host function on one of two ways, and
returns what comes along the way taken. -/
def handingEdits : List Edit :=
  [.newModule "m", .newFunction ⟨0⟩ "h" (some (.int .w32)) true,
    .addArgument ⟨0⟩ (some (.int .w32)) "", .finalizeSignature ⟨0⟩ false,
    .newFunction ⟨0⟩ "f" (some (.int .w32)) true, .addArgument ⟨1⟩ (some .i1) "c",
    .addArgument ⟨1⟩ (some (.int .w32)) "x", .finalizeSignature ⟨1⟩ false] ++
  ["entry", "left", "right", "join"].map (.newBlock ⟨1⟩ · true) ++
  Edit.fill ⟨0⟩ [.alloca (some (.int .w32)) "p", .store (some (.arg ⟨2⟩)) (some (.inst ⟨0⟩)),
    .condBr (some (.arg ⟨1⟩)) (some ⟨1⟩) (some ⟨2⟩)] ++
  Edit.fill ⟨1⟩ [.load (some (.inst ⟨0⟩)) "v",
    .call (some (.func ⟨0⟩)) [some (.inst ⟨3⟩)] "r", .br (some ⟨3⟩)] ++
  Edit.fill ⟨2⟩ [.br (some ⟨3⟩)] ++
  Edit.fill ⟨3⟩ [.phi (some (.int .w32)) "m", .ret (some (.inst ⟨7⟩))] ++
  [.addIncoming ⟨7⟩ (some (.inst ⟨4⟩)) (some ⟨1⟩),
    .addIncoming ⟨7⟩ (some (.arg ⟨2⟩)) (some ⟨2⟩)]

-- Irreducible, so that only the kernel computes with it.
@[irreducible]
def handing : Context := (Workshop.run handingEdits).context

def handed : Environment := { context := handing, layout := .host }

/-- The host function returns what it was given the time before. -/
def delaying : Interpreter RuntimeValue where
  hosts name :=
    if name = "h" then
      some fun call => .getState fun v => .setState (call.args.headD .undef) (.value v)
    else none
  state := .ofInt .w32 (-5)

theorem handing_verified : handed.context.Regular ∧
    (verifyModule handed.context ⟨0⟩).1 = .ok () ∧
    ⟨1⟩ ∈ (handed.context.module ⟨0⟩).functions ∧
    Machine.checkArgs handed.context ⟨1⟩ [.ofBool true, .ofInt .w32 (-7)] = .ok () ∧
    (delaying.run handed 20 ⟨1⟩ [.ofBool true, .ofInt .w32 (-7)]).1 =
      .value (.ofInt .w32 (-5)) := by
  refine ⟨?_, Except.eq_ok_of_toOption (by decide +kernel), by decide +kernel,
    Except.eq_ok_of_toOption (by decide +kernel), by decide +kernel⟩
  show handing.Regular
  unfold handing
  exact Workshop.regular_run (by decide +kernel)

theorem delaying_confined {c : Context} {L : Terms RuntimeValue} (hstate : L.state = L.good)
    (hgood : ∀ v : RuntimeValue, v.Canonical → L.good v) : delaying.Confined c L := by
  refine .fresh (fun name h hh call hargs => ?_)
    (hstate ▸ hgood _ (RuntimeValue.canonical_ofInt _ _))
  split at hh
  · cases hh
    refine fun v hv => ⟨?_, .ok (hstate ▸ hv)⟩
    rw [hstate]
    cases hcall : call.args with
    | nil => exact hgood _ RuntimeValue.canonical_undef
    | cons w l =>
      rw [hcall] at hargs
      exact hargs w (.head _)
  · cases hh

/-- Verified code does not get stuck. Whatever an interpreter that only runs functions of a verified
module executes, no step of its own finds a value missing, a phi without a value, an open block, an
operation that cannot be executed or a conversion that makes no sense, if no store of the module
stores the result of an instruction that has none. So no run ends with such a fault either, unless a
host function makes one up. What is parsed or made by edits is regular (`parseModule_regular`,
`Workshop.regular_run`). -/
theorem verified_run_not_stuck {env : Environment} {m : ModuleId} (hregular : env.context.Regular)
    (hverified : (verifyModule env.context m).1 = .ok ()) (hstores : env.context.StoresValues m)
    {I : σ → Prop} {i : Interpreter σ} {f : FuncId} (hf : f ∈ (env.context.module m).functions)
    {args : List RuntimeValue} (hargs : Machine.checkArgs env.context f args = .ok ()) (n : Nat) :
    (i.Confined env.context ⟨m, fun _ => True, fun _ => True, I⟩ →
      ∀ e, Machine.Raises env (Machine.run env n { i with control := .call f args }) (.failure e) →
        ¬ e.IsStuck) ∧
    (i.Confined env.context ⟨m, fun _ => True, fun e => ¬ e.IsStuck, I⟩ →
      ∀ e, (i.run env n f args).1 = .failure e → ¬ e.IsStuck) := by
  have hc : env.context.Accepted m := ⟨hregular, verifyModule_iff.mp hverified⟩
  have htakes : env.context.Takes m (fun _ => True) f args :=
    Machine.takes_of_checkArgs hargs hf fun _ _ => trivial
  refine ⟨fun hi e he => ?_, fun hi e he => ?_⟩
  · have hregime : Regime env.context ⟨m, fun _ => True, fun _ => True, I⟩ :=
      ⟨hc, fun _ _ => trivial, fun _ _ => trivial, fun _ _ _ => trivial⟩
    have htame := Machine.tame_of_raises hregime
      (Machine.sane_run hregime n (Machine.sane_start (hi.sane hregime) htakes)) he
    cases e with
    | fault x => exact (htame x rfl).2 hstores
    | _ => exact id
  · have hregime : Regime env.context ⟨m, fun _ => True, fun e => ¬ e.IsStuck, I⟩ := by
      refine ⟨hc, fun _ _ => trivial, fun e he => he hstores, fun e name he => ?_⟩
      cases e with
      | fault x =>
        unfold Failure.leaving
        dsimp only
        split <;> exact he
      | _ => exact he
    unfold Interpreter.run at he
    split at he
    · cases he
      exact id
    · simp only [hargs] at he
      have hsane :=
        (Machine.sane_run hregime n (Machine.sane_start (hi.sane hregime) htakes)).control
      unfold Interpreter.outcomeOf at he
      split at he
      · cases he
      · rename_i x hx
        cases he
        rw [hx] at hsane
        exact hsane.1.failure _ rfl
      · cases he
      · cases he

/-- The run that hands its argument to the host returns what the host kept, and no step is stuck. -/
theorem verified_run_not_stuck_handing :
    (delaying.run handed 20 ⟨1⟩ [.ofBool true, .ofInt .w32 (-7)]).1 = .value (.ofInt .w32 (-5)) ∧
      ∀ n e, Machine.Raises handed (Machine.run handed n
          { delaying with control := .call ⟨1⟩ [.ofBool true, .ofInt .w32 (-7)] }) (.failure e) →
        ¬ e.IsStuck := by
  obtain ⟨hregular, hverified, hf, hargs, hrun⟩ := handing_verified
  have hstores : handed.context.StoresValues ⟨0⟩ := by
    unfold Context.StoresValues
    decide +kernel
  exact ⟨hrun, fun n => (verified_run_not_stuck hregular hverified hstores
    (I := fun _ => True) hf hargs n).1 (delaying_confined rfl fun _ _ => trivial)⟩

/-- Runtime kinds follow static types. Whatever an interpreter that only runs functions of a
verified module executes, what its frames bind to a value of the program has the kind of that
value's type, or none, and is in canonical form; so is what a run returns; and no instruction stores
a value of another kind than its type's. The values that host functions make are canonical as
well. -/
theorem runtime_kinds_follow_types {env : Environment} {m : ModuleId}
    (hregular : env.context.Regular) (hverified : (verifyModule env.context m).1 = .ok ())
    {I : σ → Prop} {i : Interpreter σ}
    (hi : i.Confined env.context ⟨m, RuntimeValue.Canonical, fun _ => True, I⟩) {f : FuncId}
    (hf : f ∈ (env.context.module m).functions) {args : List RuntimeValue}
    (hargs : Machine.checkArgs env.context f args = .ok ())
    (hcanonical : ∀ v ∈ args, v.Canonical) (n : Nat) :
    (∀ fr ∈ (Machine.run env n { i with control := .call f args }).frames,
      ∀ v r, fr.lookup? v = some r →
        ∃ t, env.context.typeOf v = some t ∧ r.Suits t ∧ r.Canonical) ∧
    (∀ r, (i.run env n f args).1 = .value r → r.Suits (env.context.func f).ret ∧ r.Canonical) ∧
    ∀ x k t, Machine.Raises env (Machine.run env n { i with control := .call f args })
        (.failure (.fault x)) → x.cause ≠ .storeKind k t := by
  have hregime : Regime env.context ⟨m, RuntimeValue.Canonical, fun _ => True, I⟩ :=
    ⟨⟨hregular, verifyModule_iff.mp hverified⟩, fun _ h => h, fun _ _ => trivial,
      fun _ _ _ => trivial⟩
  have hsane := Machine.sane_run hregime n (Machine.sane_start (hi.sane hregime)
    (Machine.takes_of_checkArgs hargs hf hcanonical))
  refine ⟨fun fr hfr v r hr => ?_, fun r hr => ?_, fun x k t hx => ?_⟩
  · obtain ⟨g, a, hsteady⟩ := Machine.steady_of_mem_frames hsane hfr
    exact Machine.fits_of_lookup hsteady hr
  · unfold Interpreter.run at hr
    split at hr
    · cases hr
    · simp only [hargs] at hr
      have hcontrol := hsane.control
      unfold Interpreter.outcomeOf at hr
      split at hr
      · rename_i w hw
        cases hr
        rw [hw] at hcontrol
        exact hcontrol.1.value _ rfl
      all_goals cases hr
  · exact (Machine.tame_of_raises hregime hsane hx x rfl).1 k t

/-- All that is bound while a negative number is kept in memory and handed to the host is canonical
and of the kind of its type, and so is what is returned. -/
theorem runtime_kinds_follow_types_handing :
    (∀ n, ∀ fr ∈ (Machine.run handed n
        { delaying with control := .call ⟨1⟩ [.ofBool true, .ofInt .w32 (-7)] }).frames,
      ∀ v r, fr.lookup? v = some r →
        ∃ t, handing.typeOf v = some t ∧ r.Suits t ∧ r.Canonical) ∧
      (delaying.run handed 20 ⟨1⟩ [.ofBool true, .ofInt .w32 (-7)]).1 =
        .value (.ofInt .w32 (-5)) ∧
      (RuntimeValue.ofInt .w32 (-5)).Suits (handing.func ⟨1⟩).ret ∧
      (RuntimeValue.ofInt .w32 (-5)).Canonical := by
  obtain ⟨hregular, hverified, hf, hargs, hrun⟩ := handing_verified
  have hcanonical : ∀ v ∈ [RuntimeValue.ofBool true, .ofInt .w32 (-7)], v.Canonical := by
    intro v hv
    rcases List.mem_pair.mp hv with rfl | rfl
    · exact RuntimeValue.canonical_ofBool _
    · exact RuntimeValue.canonical_ofInt _ _
  have h := fun n => runtime_kinds_follow_types hregular hverified (I := RuntimeValue.Canonical)
    (delaying_confined rfl fun _ h => h) hf hargs hcanonical n
  exact ⟨fun n => (h n).1, hrun, (h 20).2.1 _ hrun⟩

end SsaIr
