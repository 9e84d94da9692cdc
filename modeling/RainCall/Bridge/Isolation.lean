import RainCall.Foundation.Bytes
import RainCall.Foundation.Run

/-!
# Which backend a script calls

`RAIN.FALL` runs scripts in one Moonquakes state that is created by the first execution and kept.
The backend of `RAIN.CALL` is found through the process-wide pointers `default_state` and
`installed_state`, the second of which a script changes when its `RAIN.CONNECT` succeeds.

An execution is described by what it finds outside (allocations, loading of the source, connection
attempts) and by the invocations its script makes, in order.
-/

namespace RainCall

open Function

/-- A `raincall_State *` other than `NULL`, which holds nothing but its backend. Backends are told
apart by the number of their allocation. -/
inductive RaincallStatePtr where
  | inprocess (id : ℕ)
  | tcp (id : ℕ)
  deriving DecidableEq, Repr

/-- The static variables of `rainfall.c` and `raincall.c`. -/
structure RainGlobals (Client : Type*) where
  /-- Whether `rainfall_state` is set. -/
  rainfallState : Bool
  /-- `rainfall_backend`, as the number of its allocation. -/
  rainfallBackend : Option ℕ
  rainfallRaincallState : Option RaincallStatePtr
  defaultState : Option RaincallStatePtr
  installedState : Option RaincallStatePtr
  /-- The field `caller` of every in-process backend. -/
  caller : ℕ → Option Client
  next : ℕ

def RainGlobals.init {Client : Type*} : RainGlobals Client :=
  ⟨false, none, none, none, none, fun _ => none, 0⟩

/-- What a script asks of the library, with the answers it gets from outside. -/
inductive RainInvocation where
  /-- `RAIN.CALL` with `argc` arguments: whether the arrays can be allocated, whether every argument
  is a string or a number, and whether `127.0.0.1:6379` could be connected to if it were tried. -/
  | call (argc : ℕ) (allocOk argsOk openOk : Bool)
  /-- `RAIN.CONNECT` with a host if it is a string, a port if it is an integer: whether the host can
  be copied, and whether the connection succeeds. -/
  | connect (host : Option Bytes) (port : Option ℤ) (allocOk openOk : Bool)

/-- One execution of `RAIN.FALL`. -/
structure RainExecution (Client : Type*) where
  client : Client
  newStateOk : Bool
  /-- `raincall_inprocess_backend_new` succeeds, if it is called. -/
  backendOk : Bool
  /-- `raincall_open_backend` succeeds, if it is called. -/
  openBackendOk : Bool
  loadOk : Bool
  script : List RainInvocation

/-- A command handed to the function `call` of a backend, with the caller the backend has then. -/
structure RainDispatch (Client : Type*) where
  backend : RaincallStatePtr
  caller : Option Client

section Model

variable {Client : Type*}

variable (s : RainGlobals Client)

def raincallOpen (openOk : Bool) : RainGlobals Client × Option RaincallStatePtr :=
  if openOk then ({ s with next := s.next + 1 }, some (.tcp s.next)) else (s, none)

def raincallGetState (openOk : Bool) : RainGlobals Client × Option RaincallStatePtr :=
  match s.installedState with
  | some R => (s, some R)
  | none =>
    match s.defaultState with
    | some R => (s, some R)
    | none =>
      let (s, R) := raincallOpen s openOk
      ({ s with defaultState := R }, R)

/-- The caller of a backend, which only the in-process one has. -/
def RainGlobals.callerOf : RaincallStatePtr → Option Client
  | .inprocess id => s.caller id
  | .tcp _ => none

/-- `rain_call`, up to the command it hands to a backend. -/
def rainCall (argc : ℕ) (allocOk argsOk openOk : Bool) :
    RainGlobals Client × List (RainDispatch Client) :=
  if argc < 1 then (s, [])
  else
    match raincallGetState s openOk with
    | (s, none) => (s, [])
    | (s, some R) =>
      if !allocOk || !argsOk then (s, []) else (s, [⟨R, s.callerOf R⟩])

/-- The arguments of `RAIN.CONNECT` pass its checks. -/
def connectArgsOk (host : Option Bytes) (port : Option ℤ) : Bool :=
  match host, port with
  | some host, some port =>
    host.length ≠ 0 && !(host.length > 255 || port ≤ 0 || port > 65535)
  | _, _ => false

def rainConnect (host : Option Bytes) (port : Option ℤ) (allocOk openOk : Bool) :
    RainGlobals Client :=
  if !connectArgsOk host port || !allocOk then s
  else
    match raincallOpen s openOk with
    | (s, none) => s
    | (s, some R) => { s with defaultState := some R, installedState := some R }

/-- One invocation of the library by a script. -/
def rainInvoke : RainInvocation → RainGlobals Client × List (RainDispatch Client)
  | .call argc allocOk argsOk openOk => rainCall s argc allocOk argsOk openOk
  | .connect host port allocOk openOk => (rainConnect s host port allocOk openOk, [])

/-- The invocations of a script, with the commands they hand to backends. -/
def rainScript (s : RainGlobals Client) :
    List RainInvocation → RainGlobals Client × List (RainDispatch Client)
  | [] => (s, [])
  | i :: rest =>
    let (s, ds) := rainInvoke s i
    let (s, ds') := rainScript s rest
    (s, ds ++ ds')

/-- `rainFallGetState`: whether there is a Moonquakes state. -/
def rainFallGetState (e : RainExecution Client) : RainGlobals Client × Bool :=
  if s.rainfallState then (s, true)
  else if !e.newStateOk then (s, false)
  else if !e.backendOk then ({ s with rainfallBackend := none }, false)
  else
    let s := { s with
      rainfallBackend := some s.next
      caller := Function.update s.caller s.next none
      next := s.next + 1 }
    if !e.openBackendOk then ({ s with rainfallRaincallState := none }, false)
    else
      let R := s.rainfallBackend.map .inprocess
      -- raincall_install_state
      ({ s with rainfallState := true, rainfallRaincallState := R, installedState := R }, true)

/-- `raincall_inprocess_backend_set_caller` on `rainfall_backend`; `none` when it is `NULL`. -/
def setCaller (c : Option Client) : Option (RainGlobals Client) :=
  s.rainfallBackend.map fun id => { s with caller := Function.update s.caller id c }

/-- `rainFallCommand`, with the commands its script hands to backends. -/
def rainFallCommand (e : RainExecution Client) :
    Option (RainGlobals Client × List (RainDispatch Client)) :=
  match rainFallGetState s e with
  | (s, false) => some (s, [])
  | (s, true) => do
    let s ← setCaller s (some e.client)
    let (s, ds) := if e.loadOk then rainScript s e.script else (s, [])
    let s ← setCaller s none
    pure (s, ds)

/-- Executions one after the other. -/
def rainFallRun (es : List (RainExecution Client)) : Option (RainGlobals Client) :=
  runSteps (fun s e => (rainFallCommand s e).map Prod.fst) s es

end Model

/-! ### Scripts that do not connect -/

/-- The invocation is a `RAIN.CONNECT` that connects. -/
def RainInvocation.connects : RainInvocation → Bool
  | .call .. => false
  | .connect host port allocOk openOk => connectArgsOk host port && allocOk && openOk

/-- The invocation is a `RAIN.CALL` that has a command to hand to a backend. -/
def RainInvocation.dispatches : RainInvocation → Bool
  | .call argc allocOk argsOk _ => 1 ≤ argc && allocOk && argsOk
  | .connect .. => false

section Proofs

variable {Client : Type*} {s : RainGlobals Client}

/-- `RAIN.CONNECT` that does not connect changes nothing. -/
lemma rainConnect_of_not_connects {host : Option Bytes} {port : Option ℤ}
    {allocOk openOk : Bool}
    (h : (RainInvocation.connect host port allocOk openOk).connects = false) :
    rainConnect s host port allocOk openOk = s := by
  rw [RainInvocation.connects] at h
  rw [rainConnect]
  split_ifs with hargs
  · rfl
  · have hopen : openOk = false := by
      cases openOk <;> simp_all
    rw [hopen]
    rfl

/-- With a state installed, an invocation changes nothing, and a `RAIN.CALL` hands its command to
the backend of that state. -/
lemma rainInvoke_of_installed {R : RaincallStatePtr} (h : s.installedState = some R)
    {i : RainInvocation} (hi : i.connects = false) :
    rainInvoke s i = (s, if i.dispatches then [⟨R, s.callerOf R⟩] else []) := by
  cases i with
  | call argc allocOk argsOk openOk =>
    have hget : raincallGetState s openOk = (s, some R) := by
      rw [raincallGetState, h]
    rw [rainInvoke, rainCall, hget, RainInvocation.dispatches]
    by_cases hargc : argc < 1
    · simp [Nat.lt_one_iff.mp hargc]
    · rw [if_neg hargc, decide_eq_true (not_lt.mp hargc)]
      cases allocOk <;> cases argsOk <;> rfl
  | connect host port allocOk openOk =>
    rw [rainInvoke, rainConnect_of_not_connects hi]
    rfl

/-- A script that does not connect changes nothing, and all its calls go to the installed backend.
-/
lemma rainScript_of_installed {R : RaincallStatePtr} (h : s.installedState = some R)
    {script : List RainInvocation} (hscript : ∀ i ∈ script, i.connects = false) :
    rainScript s script =
      (s, (script.filter RainInvocation.dispatches).map fun _ => ⟨R, s.callerOf R⟩) := by
  induction script with
  | nil => rfl
  | cons i rest ih =>
    rw [rainScript, rainInvoke_of_installed h (hscript i List.mem_cons_self)]
    dsimp only
    rw [ih fun j hj => hscript j (List.mem_cons_of_mem _ hj), List.filter_cons]
    split_ifs <;> rfl

/-! ### Executions -/

lemma setCaller_eq {id : ℕ} (h : s.rainfallBackend = some id) (c : Option Client) :
    setCaller s c = some { s with caller := update s.caller id c } :=
  Option.map_eq_some_iff.mpr ⟨id, h, rfl⟩

/-- Once the Moonquakes state exists, the state installed is the one of the in-process backend. -/
def RainGlobals.Installed (s : RainGlobals Client) : Prop :=
  s.rainfallState = true → ∃ id, s.rainfallBackend = some id ∧
    s.rainfallRaincallState = some (.inprocess id) ∧ s.installedState = some (.inprocess id)

lemma rainFallGetState_installed (h : s.Installed) (e : RainExecution Client) :
    (rainFallGetState s e).1.Installed ∧
      (rainFallGetState s e).1.rainfallState = (rainFallGetState s e).2 ∧
      (s.rainfallState = true → rainFallGetState s e = (s, true)) := by
  rw [rainFallGetState]
  by_cases hstate : s.rainfallState = true
  · rw [if_pos hstate]
    exact ⟨h, hstate, fun _ => rfl⟩
  · rw [if_neg hstate]
    have hfalse := Bool.eq_false_iff.mpr hstate
    split_ifs
    · exact ⟨h, hfalse, fun hs => absurd hs hstate⟩
    · exact ⟨fun hs => absurd hs hstate, hfalse, fun hs => absurd hs hstate⟩
    · exact ⟨fun hs => absurd hs hstate, hfalse, fun hs => absurd hs hstate⟩
    · exact ⟨fun _ => ⟨s.next, rfl, rfl, rfl⟩, rfl, fun hs => absurd hs hstate⟩

/-- Every `RAIN.CALL` of a script that is loaded has handed its command to the in-process backend,
with the client of the execution as the caller, and nothing else was handed to a backend. -/
def RainExecution.Dispatches (e : RainExecution Client) (s : RainGlobals Client)
    (ds : List (RainDispatch Client)) : Prop :=
  if s.rainfallState && e.loadOk then ∃ id, s.rainfallBackend = some id ∧
    ds = (e.script.filter RainInvocation.dispatches).map fun _ => ⟨.inprocess id, some e.client⟩
  else ds = []

/-- One execution: its commands go to the in-process backend with the running client as the caller,
and a backend that was installed stays installed. -/
lemma rainFallCommand_installed (h : s.Installed) {e : RainExecution Client}
    (he : ∀ i ∈ e.script, i.connects = false) :
    ∃ s' ds, rainFallCommand s e = some (s', ds) ∧ s'.Installed ∧
      e.Dispatches s' ds ∧
      (s.rainfallState = true → s'.rainfallState = true ∧
      s'.installedState = s.installedState) := by
  obtain ⟨hinst, hok, hkeep⟩ := rainFallGetState_installed h e
  rw [rainFallCommand]
  generalize rainFallGetState s e = r at hinst hok hkeep
  obtain ⟨s1, ok⟩ := r
  cases ok with
  | false =>
    refine ⟨s1, [], rfl, hinst, ?_, fun hs => absurd (hkeep hs) (by simp)⟩
    rw [RainExecution.Dispatches, show s1.rainfallState = false from hok]
    rfl
  | true =>
    obtain ⟨id, hid, hrain, hinstalled⟩ := hinst hok
    -- the globals while the script runs
    generalize hs2 : { s1 with caller := update s1.caller id (some e.client) } = s2
    have hset : setCaller s1 (some e.client) = some s2 := hs2 ▸ setCaller_eq hid (some e.client)
    have hid2 : s2.rainfallBackend = some id := by rw [← hs2]; exact hid
    have hinstalled2 : s2.installedState = some (.inprocess id) := by rw [← hs2]; exact hinstalled
    have hstate2 : s2.rainfallState = true := by rw [← hs2]; exact hok
    have hcaller : s2.callerOf (.inprocess id) = some e.client := by
      rw [← hs2]
      exact update_self ..
    obtain ⟨ds, hrun, hds⟩ : ∃ ds,
        (if e.loadOk then rainScript s2 e.script else (s2, [])) = (s2, ds) ∧
          e.Dispatches { s2 with caller := update s2.caller id none } ds := by
      simp only [RainExecution.Dispatches, hstate2, Bool.true_and]
      split_ifs
      · rw [rainScript_of_installed hinstalled2 he, hcaller]
        exact ⟨_, rfl, id, hid2, rfl⟩
      · exact ⟨[], rfl, rfl⟩
    refine ⟨{ s2 with caller := update s2.caller id none }, ds, ?_, ?_, hds, ?_⟩
    · dsimp only
      rw [hset, Option.bind_eq_bind, Option.bind_some, hrun]
      rw [setCaller_eq hid2]
      rfl
    · rw [← hs2]
      exact fun _ => ⟨id, hid, hrain, hinstalled⟩
    · intro hs
      have hs1 : s1 = s := congrArg Prod.fst (hkeep hs)
      rw [← hs2, hs1]
      exact ⟨hs, rfl⟩

/-- **Isolation of the backend.**  In every sequence of `RAIN.FALL` executions in which no
`RAIN.CONNECT` connects, every `RAIN.CALL` of every execution goes to the in-process backend of
`rainfall.c`, once and with the client running that execution as the caller, and an execution does
not change the state installed by an earlier one. -/
theorem rainFall_isolated {Client : Type*} (before : List (RainExecution Client))
    (e : RainExecution Client) (hbefore : ∀ e' ∈ before, ∀ i ∈ e'.script, i.connects = false)
    (he : ∀ i ∈ e.script, i.connects = false) :
    ∃ s s' ds, rainFallRun .init before = some s ∧ rainFallCommand s e = some (s', ds) ∧
      e.Dispatches s' ds ∧
      (s.rainfallState = true → s'.rainfallState = true ∧
      s'.installedState = s.installedState) := by
  have hstep : ∀ (s : RainGlobals Client) (e : RainExecution Client),
      (∀ i ∈ e.script, i.connects = false) → s.Installed →
        ∃ s', (rainFallCommand s e).map Prod.fst = some s' ∧ s'.Installed := by
    intro s e he hs
    obtain ⟨s', ds, hrun, hs', -⟩ := rainFallCommand_installed hs he
    exact ⟨s', by rw [hrun, Option.map_some], hs'⟩
  have hinit : (RainGlobals.init : RainGlobals Client).Installed :=
    fun h => absurd h Bool.false_ne_true
  obtain ⟨s, hs, hinst⟩ := runSteps_invariant RainGlobals.Installed _ hstep hinit hbefore
  obtain ⟨s', ds, hrun, -, hds, hkeep⟩ := rainFallCommand_installed hinst he
  exact ⟨s, s', ds, hs, hrun, hds, hkeep⟩

/-- Client 8 calls in its script after a connection attempt that failed, and after client 7 had its
turn. -/
theorem rainFall_isolated_failed_connect :
    ∃ (s s' : RainGlobals ℕ) (ds : List (RainDispatch ℕ)),
      rainFallRun .init [⟨7, true, true, true, true, [.call 1 true true true]⟩] = some s ∧
      rainFallCommand s ⟨8, true, true, true, true,
        [.connect (some [104]) (some 6379) true false, .call 1 true true true]⟩ = some (s', ds) ∧
      s'.rainfallState = true ∧ ∃ id, s'.rainfallBackend = some id ∧
        ds = [⟨.inprocess id, some 8⟩] := by
  obtain ⟨s, s', ds, hs, hrun, hds, hkeep⟩ := rainFall_isolated
    [⟨7, true, true, true, true, [.call 1 true true true]⟩]
    ⟨8, true, true, true, true,
      [.connect (some [104]) (some 6379) true false, .call 1 true true true]⟩
    (by simp [RainInvocation.connects]) (by simp [RainInvocation.connects])
  obtain ⟨hstate, -⟩ := hkeep (by cases hs; rfl)
  rw [RainExecution.Dispatches, hstate] at hds
  exact ⟨s, s', ds, hs, hrun, hstate, hds⟩

/-- Client 7 connects in its script; the `RAIN.CALL` of client 8 then goes to the connection of
client 7. -/
theorem rainFall_connect_redirects :
    ∃ s s' : RainGlobals ℕ,
      rainFallRun .init [⟨7, true, true, true, true,
        [.connect (some [104]) (some 6379) true true]⟩] = some s ∧
      rainFallCommand s ⟨8, true, true, true, true, [.call 1 true true true]⟩ =
        some (s', [⟨.tcp 1, none⟩]) :=
  ⟨_, _, rfl, rfl⟩

end Proofs

end RainCall
