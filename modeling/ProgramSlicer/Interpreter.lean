import ProgramSlicer.MemoryEdges
import ProgramSlicer.Library.SlicedRuns

/-!
What the functions of a module compute, so that a module can be compared with its
slice. The passes look at operands, blocks and calls only; what an instruction does
with its operands is an interpretation. A run that meets undefined behaviour is `none`.
-/
namespace ProgramSlicer
open SlicedRuns FoldRules

abbrev Memory (V : Type) := V → V

/-- What the passes take no notice of. `compute` is told the call sites that lead to the
instruction and the block that was left last, for `alloca` and `phi`; `mayAccess` are the
addresses that an access through a pointer operand is defined for. -/
structure Interpretation (V : Type) where
  undef : V
  constant : Value → V
  compute : InstId → List InstId → Option BlockId → List V → Option V
  branch : InstId → List V → Option BlockId
  external : FuncId → List V → Memory V → Option (V × Memory V)
  mayAccess : Value → V → Bool

structure Event (V : Type) where
  inst : InstId
  operands : List V
  result : V
  deriving DecidableEq

structure Activation (V : Type) where
  regs : InstId → V
  args : ArgId → V
  memory : Memory V
  path : List InstId
  origin : Option BlockId

structure Result (V : Type) where
  value : V
  memory : Memory V

abbrev Callee (V : Type) :=
  List InstId → FuncId → List V → Memory V → Option (List (Event V) × Result V)

inductive Leave (V : Type) where
  | ret (v : V)
  | jump (c : BlockId)
  | fallOff

section Execution
variable {V : Type} [DecidableEq V] (J : Interpretation V) (observe : InstId → Bool)

def Activation.eval (σ : Activation V) : Value → V
  | .inst i => σ.regs i
  | .arg a => σ.args a
  | v => J.constant v

def Activation.operands (σ : Activation V) (I : Instruction) : List V := I.operands.map (σ.eval J)

/-- The value of an instruction that is no terminator, and the memory after it. -/
def effect (call : Callee V) (σ : Activation V) (I : Instruction) :
    Option (List (Event V) × Result V) :=
  match I.opcode with
  | .load => do
    let p ← I.loadPointer
    if J.mayAccess p (σ.eval J p) then
      some ([], ⟨σ.memory (σ.eval J p), σ.memory⟩)
    else none
  | .store => do
    let v ← I.operands[0]?
    let p ← I.storePointer
    if J.mayAccess p (σ.eval J p) then
      some ([], ⟨J.undef, Function.update σ.memory (σ.eval J p) (σ.eval J v)⟩)
    else none
  | .call => do
    let f ← I.getCalledFunction
    call (I.id :: σ.path) f (I.argOperands.map (σ.eval J)) σ.memory
  | _ => do
    let v ← J.compute I.id σ.path σ.origin (σ.operands J I)
    some ([], ⟨v, σ.memory⟩)

def event (σ : Activation V) (I : Instruction) (v : V) : List (Event V) :=
  if observe I.id then [⟨I.id, σ.operands J I, v⟩] else []

def Activation.assign (σ : Activation V) (i : InstId) (r : Result V) : Activation V :=
  { σ with regs := Function.update σ.regs i r.value, memory := r.memory }

def execInst (call : Callee V) (σ : Activation V) (I : Instruction) :
    Option (List (Event V) × Activation V) := do
  let done ← effect J call σ I
  some (done.1 ++ event J observe σ I done.2.value, σ.assign I.id done.2)

def terminate (σ : Activation V) (I : Instruction) : Option (List (Event V) × Leave V) :=
  if I.opcode = .ret then
    some (event J observe σ I J.undef, .ret ((I.operands.head?.map (σ.eval J)).getD J.undef))
  else do
    let c ← J.branch I.id (σ.operands J I)
    if c ∈ I.succs then some (event J observe σ I J.undef, .jump c) else none

/-- The instructions of a block, until a terminator leaves it. The phis of a block are
evaluated one after another like the others, where LLVM evaluates them at once. -/
def execInsts (call : Callee V) :
    List Instruction → Activation V → Option (List (Event V) × Leave V × Activation V)
  | [], σ => some ([], .fallOff, σ)
  | I :: rest, σ =>
    if I.isTerminator then do
      let left ← terminate J observe σ I
      some (left.1, left.2, σ)
    else do
      let one ← execInst J observe call σ I
      let later ← execInsts call rest one.2
      some (one.1 ++ later.1, later.2)

variable (repair : BlockId → Option BlockId)

/-- Where a block is left for. One without terminator is continued as `repair` says. -/
def leaveBlock (b : BlockId) (σ : Activation V) :
    Leave V → After BlockId (Activation V) (Result V)
  | .ret v => .done ⟨v, σ.memory⟩
  | .jump c => .goOn c { σ with origin := some b }
  | .fallOff =>
    match repair b with
    | some c => .goOn c { σ with origin := some b }
    | none => .done ⟨J.undef, σ.memory⟩

def blockStep (F : Function) (call : Callee V) :
    Step BlockId (Activation V) (Event V) (Result V) := fun b σ => do
  let B ← F.blocks.find? (·.id = b)
  let done ← execInsts J observe call B.insts σ
  some (done.1, leaveBlock J repair b done.2.2 done.2.1)

def enter (F : Function) (path : List InstId) (vs : List V) (m : Memory V) : Activation V where
  regs _ := J.undef
  args a := ((F.args.zip vs).lookup a).getD J.undef
  memory := m
  path := path
  origin := none

/-- A call with so much fuel; functions without a body are external. -/
def callIn (fs : List Function) : Nat → Callee V
  | 0 => fun _ _ _ _ => none
  | n + 1 => fun path f vs m => do
    let F ← fs.find? (·.id = f)
    match F.blocks.head? with
    | none => (J.external f vs m).map fun done => ([], ⟨done.1, done.2⟩)
    | some B =>
      run (blockStep J observe repair F (callIn fs n)) n B.id (enter J F path vs m)

end Execution

section Fuel
variable {V : Type} [DecidableEq V] {J : Interpretation V} {observe : InstId → Bool}
  {repair : BlockId → Option BlockId}

def Callee.Within (call call' : Callee V) : Prop :=
  ∀ path f vs m x, call path f vs m = some x → call' path f vs m = some x

theorem effect_within {call call' : Callee V} (within : call.Within call') {σ : Activation V}
    {I : Instruction} {x : List (Event V) × Result V} (ran : effect J call σ I = some x) :
    effect J call' σ I = some x := by
  unfold effect at ran ⊢
  split at ran
  · exact ran
  · exact ran
  · obtain ⟨f, callee, inner⟩ := bind_some ran
    rw [callee]
    exact within _ _ _ _ _ inner
  · exact ran

theorem execInst_within {call call' : Callee V} (within : call.Within call') {σ : Activation V}
    {I : Instruction} {x : List (Event V) × Activation V}
    (ran : execInst J observe call σ I = some x) : execInst J observe call' σ I = some x := by
  obtain ⟨done, effects, same⟩ := bind_some ran
  unfold execInst
  rw [effect_within within effects]
  exact same

theorem execInsts_cons {call : Callee V} {I : Instruction} {rest : List Instruction}
    {σ ρ : Activation V} {first later : List (Event V)} {x : Leave V × Activation V}
    (plain : I.isTerminator = false) (one : execInst J observe call σ I = some (first, ρ))
    (others : execInsts J observe call rest ρ = some (later, x)) :
    execInsts J observe call (I :: rest) σ = some (first ++ later, x) := by
  unfold execInsts
  rw [plain, one]
  simp [others]

theorem execInsts_cases {call : Callee V} {I : Instruction} {rest : List Instruction}
    {σ : Activation V} {out : List (Event V)} {x : Leave V × Activation V}
    (plain : I.isTerminator = false)
    (ran : execInsts J observe call (I :: rest) σ = some (out, x)) :
    ∃ first ρ later, execInst J observe call σ I = some (first, ρ) ∧
      execInsts J observe call rest ρ = some (later, x) ∧ out = first ++ later := by
  unfold execInsts at ran
  rw [plain] at ran
  obtain ⟨⟨first, ρ⟩, one, ran⟩ := bind_some ran
  obtain ⟨⟨later, y⟩, others, same⟩ := bind_some ran
  obtain ⟨rfl, rfl⟩ := Prod.mk.inj (Option.some.inj same)
  exact ⟨first, ρ, later, one, others, rfl⟩

theorem execInsts_last {call : Callee V} {T : Instruction} {rest : List Instruction}
    {σ : Activation V} (last : T.isTerminator = true) :
    execInsts J observe call (T :: rest) σ =
      (terminate J observe σ T).map fun left => (left.1, left.2, σ) := by
  unfold execInsts
  rw [last, Option.map_eq_bind]
  rfl

theorem execInsts_within {call call' : Callee V} (within : call.Within call')
    {l : List Instruction} {σ : Activation V} {x : List (Event V) × Leave V × Activation V}
    (ran : execInsts J observe call l σ = some x) : execInsts J observe call' l σ = some x := by
  induction l generalizing σ x with
  | nil => exact ran
  | cons I rest ih =>
    cases last : I.isTerminator with
    | true =>
      rw [execInsts_last last] at ran ⊢
      exact ran
    | false =>
      obtain ⟨first, ρ, later, one, others, same⟩ := execInsts_cases (x := x.2) last ran
      rw [execInsts_cons last (execInst_within within one) (ih others), ← same]

omit [DecidableEq V] in
theorem terminate_leave {T : Instruction} {σ : Activation V} {out : List (Event V)}
    {leave : Leave V} (ran : terminate J observe σ T = some (out, leave)) :
    (T.opcode = .ret ∧ ∃ v, leave = .ret v) ∨ ∃ c ∈ T.succs, leave = .jump c := by
  unfold terminate at ran
  split at ran
  · rename_i isRet
    obtain ⟨_, rfl⟩ := Prod.mk.inj (Option.some.inj ran)
    exact .inl ⟨isRet, _, rfl⟩
  · obtain ⟨c, _, ran⟩ := bind_some ran
    split at ran
    · rename_i succ
      obtain ⟨_, rfl⟩ := Prod.mk.inj (Option.some.inj ran)
      exact .inr ⟨c, succ, rfl⟩
    · cases ran

theorem execInsts_leave {call : Callee V} {T : Instruction} (last : T.isTerminator = true)
    {body : List Instruction} (plain : ∀ I ∈ body, I.isTerminator = false) {σ τ : Activation V}
    {out : List (Event V)} {leave : Leave V}
    (ran : execInsts J observe call (body ++ [T]) σ = some (out, leave, τ)) :
    (T.opcode = .ret ∧ ∃ v, leave = .ret v) ∨ ∃ c ∈ T.succs, leave = .jump c := by
  induction body generalizing σ out with
  | nil =>
    rw [List.nil_append, execInsts_last last] at ran
    obtain ⟨⟨seen, leave⟩, terminated, same⟩ := Option.map_eq_some_iff.mp ran
    obtain ⟨_, rfl, _⟩ := by simpa using same
    exact terminate_leave terminated
  | cons I body ih =>
    obtain ⟨_, ρ, later, _, others, _⟩ := execInsts_cases (plain I (List.mem_cons_self ..)) ran
    exact ih (fun K hK => plain K (List.mem_cons_of_mem I hK)) others

theorem blockStep_within {F : Function} {call call' : Callee V} (within : call.Within call')
    {b : BlockId} {σ : Activation V} {x : List (Event V) × After BlockId (Activation V) (Result V)}
    (ran : blockStep J observe repair F call b σ = some x) :
    blockStep J observe repair F call' b σ = some x := by
  obtain ⟨B, found, ran⟩ := bind_some ran
  obtain ⟨done, insts, same⟩ := bind_some ran
  unfold blockStep
  rw [found]
  simp only [Option.bind_eq_bind, Option.bind_some]
  rw [execInsts_within within insts]
  exact same

theorem callIn_cases {fs : List Function} {n : Nat} {path : List InstId} {f : FuncId} {vs : List V}
    {m : Memory V} {x : List (Event V) × Result V}
    (ran : callIn J observe repair fs (n + 1) path f vs m = some x) :
    ∃ F, fs.find? (·.id = f) = some F ∧
      ((F.blocks = [] ∧ ∃ v m', J.external f vs m = some (v, m') ∧ x = ([], ⟨v, m'⟩)) ∨
        ∃ B, F.blocks.head? = some B ∧
          run (blockStep J observe repair F (callIn J observe repair fs n)) n B.id
            (enter J F path vs m) = some x) := by
  obtain ⟨F, found, ran⟩ := bind_some ran
  refine ⟨F, found, ?_⟩
  cases first : F.blocks.head? with
  | none =>
    rw [first] at ran
    obtain ⟨⟨v, m'⟩, result, same⟩ := Option.map_eq_some_iff.mp ran
    exact .inl ⟨List.head?_eq_none_iff.mp first, v, m', result, same.symm⟩
  | some B =>
    rw [first] at ran
    exact .inr ⟨B, rfl, ran⟩

theorem callIn_external {fs : List Function} {n : Nat} {path : List InstId} {f : FuncId}
    {vs : List V} {m m' : Memory V} {v : V} {F : Function} (found : fs.find? (·.id = f) = some F)
    (declared : F.blocks = []) (result : J.external f vs m = some (v, m')) :
    callIn J observe repair fs (n + 1) path f vs m = some ([], ⟨v, m'⟩) := by
  simp [callIn, found, declared, result]

theorem callIn_body {fs : List Function} {n : Nat} {path : List InstId} {f : FuncId}
    {vs : List V} {m : Memory V} {F : Function} {B : BasicBlock}
    (found : fs.find? (·.id = f) = some F) (first : F.blocks.head? = some B) :
    callIn J observe repair fs (n + 1) path f vs m =
      run (blockStep J observe repair F (callIn J observe repair fs n)) n B.id
        (enter J F path vs m) := by
  simp [callIn, found, first]

theorem blockStep_monotone {F : Function} {call : Nat → Callee V}
    (more : ∀ d e, d ≤ e → (call d).Within (call e)) :
    Monotone fun d => blockStep J observe repair F (call d) :=
  fun d e le _ _ _ => blockStep_within (more d e le)

theorem callIn_more (fs : List Function) (n k : Nat) (le : n ≤ k) :
    (callIn J observe repair fs n).Within (callIn J observe repair fs k) := by
  induction n generalizing k with
  | zero =>
    intro path f vs m x ran
    cases ran
  | succ n ih =>
    obtain ⟨k, rfl⟩ : ∃ j, k = j + 1 := ⟨k - 1, by omega⟩
    intro path f vs m x ran
    obtain ⟨F, found, ⟨declared, v, m', result, rfl⟩ | ⟨B, first, ran⟩⟩ := callIn_cases ran
    · exact callIn_external found declared result
    · rw [callIn_body found first]
      exact run_more (fun b σ x => blockStep_within (ih k (by omega))) (by omega) ran

/-- Two interpretations that differ in what some instructions compute. -/
structure Interpretation.SameOff (J J' : Interpretation V) (changed : InstId → Prop) : Prop where
  undef : J'.undef = J.undef
  constant : J'.constant = J.constant
  external : J'.external = J.external
  mayAccess : J'.mayAccess = J.mayAccess
  compute : ∀ i, ¬ changed i → J'.compute i = J.compute i
  branch : ∀ i, ¬ changed i → J'.branch i = J.branch i

section SameOff
variable {J' : Interpretation V} {changed : InstId → Prop} (same : J.SameOff J' changed)
include same

omit [DecidableEq V] in
theorem eval_sameOff (σ : Activation V) : σ.eval J' = σ.eval J := by
  funext v
  cases v <;> simp [Activation.eval, same.constant]

theorem execInst_sameOff (call : Callee V) (σ : Activation V) {I : Instruction}
    (old : ¬ changed I.id) : execInst J' observe call σ I = execInst J observe call σ I := by
  simp only [execInst, effect, event, Activation.operands, eval_sameOff same, same.mayAccess,
    same.undef, same.compute I.id old]

omit [DecidableEq V] in
theorem terminate_sameOff (σ : Activation V) {I : Instruction} (old : ¬ changed I.id) :
    terminate J' observe σ I = terminate J observe σ I := by
  simp only [terminate, event, Activation.operands, eval_sameOff same, same.undef,
    same.branch I.id old]

theorem execInsts_sameOff (call : Callee V) {l : List Instruction}
    (old : ∀ I ∈ l, ¬ changed I.id) (σ : Activation V) :
    execInsts J' observe call l σ = execInsts J observe call l σ := by
  induction l generalizing σ with
  | nil => rfl
  | cons I rest ih =>
    have first := old I (List.mem_cons_self ..)
    simp only [execInsts, terminate_sameOff same σ first, execInst_sameOff same call σ first,
      ih fun K hK => old K (List.mem_cons_of_mem I hK)]

theorem callIn_sameOff {fs : List Function} (old : ∀ F ∈ fs, ∀ I ∈ F.insts, ¬ changed I.id)
    (n : Nat) : callIn J' observe repair fs n = callIn J observe repair fs n := by
  induction n with
  | zero => rfl
  | succ n ih =>
    have step : ∀ F ∈ fs, blockStep J' observe repair F (callIn J observe repair fs n) =
        blockStep J observe repair F (callIn J observe repair fs n) := by
      intro F hF
      funext b σ
      simp only [blockStep]
      cases found : F.blocks.find? (·.id = b) with
      | none => rfl
      | some B =>
        have inF : ∀ I ∈ B.insts, ¬ changed I.id := fun I hI =>
          old F hF I (mem_insts.mpr ⟨B, List.mem_of_find?_eq_some found, hI⟩)
        have leave : leaveBlock J' repair b = leaveBlock J repair b := by
          funext τ leave
          cases leave <;> simp [leaveBlock, same.undef]
        simp [execInsts_sameOff same _ inF, leave]
    funext path f vs m
    simp only [callIn]
    cases found : fs.find? (·.id = f) with
    | none => rfl
    | some F =>
      have enters : enter J' F path vs m = enter J F path vs m := by
        simp [enter, same.undef]
      simp [ih, step F (List.mem_of_find?_eq_some found), enters, same.external]

end SameOff

end Fuel

/-- The function holds such an instruction, or calls one that does. -/
inductive Contains (fs : List Function) (P : Instruction → Prop) : FuncId → Prop where
  | here {F : Function} {I : Instruction} (hF : F ∈ fs) (hI : I ∈ F.insts) (holds : P I) :
      Contains fs P F.id
  | called {F : Function} {I : Instruction} {g : FuncId} (hF : F ∈ fs) (hI : I ∈ F.insts)
      (isCall : I.opcode = .call) (callee : I.getCalledFunction = some g)
      (inner : Contains fs P g) : Contains fs P F.id

theorem contains_mono {fs : List Function} {P Q : Instruction → Prop}
    (imp : ∀ F ∈ fs, ∀ I ∈ F.insts, P I → Q I) {f : FuncId} (inside : Contains fs P f) :
    Contains fs Q f := by
  induction inside with
  | here hF hI holds => exact .here hF hI (imp _ hF _ hI holds)
  | called hF hI isCall callee _ ih => exact .called hF hI isCall callee ih

section Quiet
variable {V : Type} (J : Interpretation V) (observe : InstId → Bool) (watched : V → Prop)

/-- The instruction is observed, or may write where somebody looks. -/
def Shows (I : Instruction) : Prop :=
  observe I.id = true ∨
    I.opcode = .store ∧ ∃ p a, I.storePointer = some p ∧ J.mayAccess p a = true ∧ watched a

/-- Declared functions depend on their arguments only and leave the memory as it is. -/
def Interpretation.ExternalsPure : Prop :=
  ∃ g : FuncId → List V → Option V, ∀ f vs m, J.external f vs m = (g f vs).map fun v => (v, m)

def SameWatched (m m' : Memory V) : Prop := ∀ a, watched a → m' a = m a

def QuietCalls (call : Callee V) (I : Instruction) : Prop :=
  I.opcode = .call → ∀ f, I.getCalledFunction = some f → ∀ path vs m out r,
    call path f vs m = some (out, r) → out = [] ∧ SameWatched watched m r.memory

variable {J observe watched}

theorem sameWatched_trans {m m' m'' : Memory V} (first : SameWatched watched m m')
    (second : SameWatched watched m' m'') : SameWatched watched m m'' :=
  fun a seen => (second a seen).trans (first a seen)

theorem event_quiet {σ : Activation V} {I : Instruction} {v : V}
    (unseen : observe I.id = false) : event J observe σ I v = [] := by
  simp [event, unseen]

theorem leaveBlock_memory {repair : BlockId → Option BlockId} {b : BlockId} {σ : Activation V}
    {leave : Leave V} : (∀ c τ, leaveBlock J repair b σ leave = .goOn c τ → τ.memory = σ.memory) ∧
      ∀ r, leaveBlock J repair b σ leave = .done r → r.memory = σ.memory := by
  unfold leaveBlock
  constructor
  · intro c τ goes
    split at goes
    · cases goes
    · obtain ⟨_, rfl⟩ := After.goOn.inj goes
      rfl
    · split at goes
      · obtain ⟨_, rfl⟩ := After.goOn.inj goes
        rfl
      · cases goes
  · intro r ends
    split at ends
    · obtain rfl := After.done.inj ends
      rfl
    · cases ends
    · split at ends
      · cases ends
      · obtain rfl := After.done.inj ends
        rfl

theorem terminate_quiet {σ : Activation V} {I : Instruction}
    (quiet : ¬ Shows J observe watched I) {out : List (Event V)} {leave : Leave V}
    (ran : terminate J observe σ I = some (out, leave)) : out = [] := by
  have unseen : observe I.id = false := by
    by_contra seen
    exact quiet (.inl (by simpa using seen))
  unfold terminate at ran
  rw [event_quiet unseen] at ran
  split at ran
  · exact (Prod.mk.inj (Option.some.inj ran)).1.symm
  · obtain ⟨c, _, ran⟩ := bind_some ran
    split at ran
    · exact (Prod.mk.inj (Option.some.inj ran)).1.symm
    · cases ran

variable [DecidableEq V]

theorem effect_quiet {call : Callee V} {σ : Activation V} {I : Instruction}
    (quiet : ¬ Shows J observe watched I) (calls : QuietCalls watched call I)
    {out : List (Event V)} {r : Result V} (ran : effect J call σ I = some (out, r)) :
    out = [] ∧ SameWatched watched σ.memory r.memory := by
  unfold effect at ran
  split at ran
  · obtain ⟨p, _, ran⟩ := bind_some ran
    split at ran
    · obtain ⟨rfl, rfl⟩ := Prod.mk.inj (Option.some.inj ran)
      exact ⟨rfl, fun _ _ => rfl⟩
    · cases ran
  · rename_i isStore
    obtain ⟨v, _, ran⟩ := bind_some ran
    obtain ⟨p, pointer, ran⟩ := bind_some ran
    split at ran
    · rename_i access
      obtain ⟨rfl, rfl⟩ := Prod.mk.inj (Option.some.inj ran)
      refine ⟨rfl, fun a seen => Function.update_of_ne ?_ _ _⟩
      rintro rfl
      exact quiet (.inr ⟨isStore, p, _, pointer, access, seen⟩)
    · cases ran
  · rename_i isCall
    obtain ⟨f, callee, ran⟩ := bind_some ran
    exact calls isCall f callee _ _ _ _ _ ran
  · obtain ⟨v, _, ran⟩ := bind_some ran
    obtain ⟨rfl, rfl⟩ := Prod.mk.inj (Option.some.inj ran)
    exact ⟨rfl, fun _ _ => rfl⟩

theorem execInst_cases {call : Callee V} {σ τ : Activation V} {I : Instruction}
    {out : List (Event V)} (ran : execInst J observe call σ I = some (out, τ)) :
    ∃ inner r, effect J call σ I = some (inner, r) ∧
      out = inner ++ event J observe σ I r.value ∧ τ = σ.assign I.id r := by
  obtain ⟨⟨inner, r⟩, effects, same⟩ := bind_some ran
  obtain ⟨rfl, rfl⟩ := Prod.mk.inj (Option.some.inj same)
  exact ⟨inner, r, effects, rfl, rfl⟩

theorem execInst_quiet {call : Callee V} {σ τ : Activation V} {I : Instruction}
    (quiet : ¬ Shows J observe watched I) (calls : QuietCalls watched call I)
    {out : List (Event V)} (ran : execInst J observe call σ I = some (out, τ)) :
    out = [] ∧ ∃ r, τ = σ.assign I.id r ∧ SameWatched watched σ.memory r.memory := by
  obtain ⟨inner, r, effects, rfl, rfl⟩ := execInst_cases ran
  obtain ⟨rfl, same⟩ := effect_quiet quiet calls effects
  have unseen : observe I.id = false := by
    by_contra seen
    exact quiet (.inl (by simpa using seen))
  exact ⟨by simp [event_quiet unseen], r, rfl, same⟩

theorem execInsts_quiet {call : Callee V} {l : List Instruction}
    (quiet : ∀ I ∈ l, ¬ Shows J observe watched I) (calls : ∀ I ∈ l, QuietCalls watched call I)
    {σ τ : Activation V} {out : List (Event V)} {leave : Leave V}
    (ran : execInsts J observe call l σ = some (out, leave, τ)) :
    out = [] ∧ SameWatched watched σ.memory τ.memory := by
  induction l generalizing σ out with
  | nil =>
    obtain ⟨rfl, _, rfl⟩ := by simpa [execInsts] using ran
    exact ⟨rfl, fun _ _ => rfl⟩
  | cons I rest ih =>
    have here := quiet I (List.mem_cons_self ..)
    cases last : I.isTerminator with
    | true =>
      rw [execInsts_last last] at ran
      obtain ⟨left, terminated, same⟩ := Option.map_eq_some_iff.mp ran
      obtain ⟨rfl, _, rfl⟩ := by simpa using same
      exact ⟨terminate_quiet here terminated, fun _ _ => rfl⟩
    | false =>
      obtain ⟨first, ρ, later, one, others, rfl⟩ := execInsts_cases last ran
      obtain ⟨rfl, r, rfl, kept⟩ := execInst_quiet here (calls I (List.mem_cons_self ..)) one
      obtain ⟨rfl, kept'⟩ := ih (fun K hK => quiet K (List.mem_cons_of_mem I hK))
        (fun K hK => calls K (List.mem_cons_of_mem I hK)) others
      exact ⟨rfl, sameWatched_trans kept kept'⟩

/-- Calling a function that contains nothing that shows has no effect that is seen. -/
theorem callIn_quiet {repair : BlockId → Option BlockId} {fs : List Function}
    (pure : J.ExternalsPure) (n : Nat) {f : FuncId}
    (quiet : ¬ Contains fs (Shows J observe watched) f) {path : List InstId} {vs : List V}
    {m : Memory V} {out : List (Event V)} {r : Result V}
    (ran : callIn J observe repair fs n path f vs m = some (out, r)) :
    out = [] ∧ SameWatched watched m r.memory := by
  induction n generalizing path f vs m out r with
  | zero => cases ran
  | succ n ih =>
    obtain ⟨F, found, rest⟩ := callIn_cases ran
    have hF : F ∈ fs := List.mem_of_find?_eq_some found
    have same : F.id = f := by simpa using List.find?_some found
    rcases rest with ⟨_, v, m', result, done⟩ | ⟨B, _, ran⟩
    · obtain ⟨g, known⟩ := pure
      rw [known] at result
      obtain ⟨w, _, both⟩ := Option.map_eq_some_iff.mp result
      obtain ⟨rfl, rfl⟩ := Prod.mk.inj done
      exact ⟨rfl, fun _ _ => by rw [(Prod.mk.inj both).2]⟩
    · have oneBlock : ∀ b σ x, blockStep J observe repair F (callIn J observe repair fs n) b σ =
          some x → ∃ leave τ, x = ([], leaveBlock J repair b τ leave) ∧
            SameWatched watched σ.memory τ.memory := by
        intro b σ x step
        obtain ⟨C, block, step⟩ := bind_some step
        obtain ⟨⟨first, leave, τ⟩, insts, last⟩ := bind_some step
        have inF : ∀ I ∈ C.insts, I ∈ F.insts := fun I hI =>
          mem_insts.mpr ⟨C, List.mem_of_find?_eq_some block, hI⟩
        have hidden : ∀ I ∈ C.insts, ¬ Shows J observe watched I := fun I hI shows =>
          quiet (same ▸ .here hF (inF I hI) shows)
        have calls : ∀ I ∈ C.insts, QuietCalls watched (callIn J observe repair fs n) I :=
          fun I hI isCall g callee _ _ _ _ _ inner =>
            ih (fun inside => quiet (same ▸ .called hF (inF I hI) isCall callee inside)) inner
        obtain ⟨rfl, kept⟩ := execInsts_quiet hidden calls insts
        exact ⟨leave, τ, (Option.some.inj last).symm, kept⟩
      have start : ([] : List (Event V)) = [] ∧
          SameWatched watched m (enter J F path vs m).memory := ⟨rfl, fun _ _ => rfl⟩
      refine run_keeps (P := fun before _ σ => before = [] ∧ SameWatched watched m σ.memory)
        (Q := fun whole r => whole = [] ∧ SameWatched watched m r.memory) ?_ ?_ ran start
      · rintro _ b σ first c ρ ⟨rfl, kept⟩ step
        obtain ⟨leave, τ, both, kept'⟩ := oneBlock b σ _ step
        obtain ⟨rfl, goes⟩ := Prod.mk.inj both
        refine ⟨rfl, ?_⟩
        rw [leaveBlock_memory.1 c ρ goes.symm]
        exact sameWatched_trans kept kept'
      · rintro _ b σ first r ⟨rfl, kept⟩ step
        obtain ⟨leave, τ, both, kept'⟩ := oneBlock b σ _ step
        obtain ⟨rfl, ends⟩ := Prod.mk.inj both
        refine ⟨rfl, ?_⟩
        rw [leaveBlock_memory.2 r ends.symm]
        exact sameWatched_trans kept kept'

end Quiet
end ProgramSlicer
