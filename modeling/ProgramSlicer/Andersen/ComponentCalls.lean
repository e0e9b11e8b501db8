import ProgramSlicer.Andersen.GraphWalk

/-!
The calls that the cycle detector makes when nothing is merged while it runs.
They depend on the graph and its order alone: what a client that only logs them
records is what every other client is asked to do. Each node is in one call, and
a component is finished after its members and after what it leads to.
-/
namespace ProgramSlicer.Andersen.CycleDetector
open Relation Components FoldRules GrowingWalk

/-- A call of one of the two virtual functions that process a cycle. -/
inductive Call (N : Type) where
  | processNodeOnCycle (node repNode : N)
  | processCycleRepNode (node : N)
deriving DecidableEq

variable {N σ : Type}

def Call.node : Call N → N
  | .processNodeOnCycle node _ => node
  | .processCycleRepNode node => node

def Call.run (c : CycleDetector N σ) : Call N → σ → Option σ
  | .processNodeOnCycle node repNode, s => c.processNodeOnCycle node repNode s
  | .processCycleRepNode node, s => c.processCycleRepNode node s

def replay (c : CycleDetector N σ) (calls : List (Call N)) (s : σ) : Option σ :=
  calls.foldlM (fun s call => call.run c s) s

/-- A client for which no node of the graph is merged, and whose graph stays as it is. -/
structure KeepsGraph (c : CycleDetector N σ) (graph : NodeIterator N σ) : Prop where
  getRep : ∀ s, ∀ x ∈ graph.nodes s, c.getRep x s = (x, s)
  calls : ∀ call s s', Call.run c call s = some s' → c.children s' = c.children s ∧
    graph.nodes s' = graph.nodes s ∧ graph.epoch s' = graph.epoch s

structure OnGraph (c : CycleDetector N σ) (graph : NodeIterator N σ) (raw : N → List N)
    (nodes : List N) (epoch : Nat) (s : σ) : Prop where
  children : c.children s = raw
  nodes : graph.nodes s = nodes
  epoch : graph.epoch s = epoch

def recorder (raw : N → List N) : CycleDetector N (List (Call N)) where
  children _ := raw
  getRep x log := (x, log)
  processNodeOnCycle node repNode log := some (log ++ [.processNodeOnCycle node repNode])
  processCycleRepNode node log := some (log ++ [.processCycleRepNode node])

theorem recorder_run (raw : N → List N) (call : Call N) (log : List (Call N)) :
    call.run (recorder raw) log = some (log ++ [call]) := by
  cases call <;> rfl

def fixedNodes (nodes : List N) (nodup : nodes.Nodup) : NodeIterator N (List (Call N)) where
  nodes _ := nodes
  nodup _ := nodup
  epoch _ := 0

theorem recorder_keepsGraph (raw : N → List N) {nodes : List N} (nodup : nodes.Nodup) :
    KeepsGraph (recorder raw) (fixedNodes nodes nodup) :=
  ⟨fun _ _ _ => rfl, fun _ _ _ _ => ⟨rfl, rfl, rfl⟩⟩

theorem replay_cons (c : CycleDetector N σ) (call : Call N) (calls : List (Call N)) (s : σ) :
    replay c (call :: calls) s = call.run c s >>= replay c calls :=
  List.foldlM_cons

theorem replay_recorder (raw : N → List N) (calls log : List (Call N)) :
    replay (recorder raw) calls log = some (log ++ calls) := by
  induction calls generalizing log with
  | nil => simp [replay]
  | cons call calls ih =>
    rw [replay_cons, recorder_run, Option.bind_eq_bind, Option.bind_some, ih, List.append_assoc,
      List.singleton_append]

theorem replay_append (c : CycleDetector N σ) (first second : List (Call N)) (s : σ) :
    replay c (first ++ second) s = replay c first s >>= replay c second :=
  List.foldlM_append

section Keeping
variable {c : CycleDetector N σ} {graph : NodeIterator N σ} {raw : N → List N} {nodes : List N}
  {epoch : Nat}

theorem onGraph_call (keeps : KeepsGraph c graph) {call : Call N} {s s' : σ}
    (run : call.run c s = some s') (on : OnGraph c graph raw nodes epoch s) :
    OnGraph c graph raw nodes epoch s' := by
  obtain ⟨children, same, valid⟩ := keeps.calls call s s' run
  exact ⟨children.trans on.children, same.trans on.nodes, valid.trans on.epoch⟩

theorem replay_onGraph (keeps : KeepsGraph c graph) {calls : List (Call N)} {s s' : σ}
    (run : replay c calls s = some s') (on : OnGraph c graph raw nodes epoch s) :
    OnGraph c graph raw nodes epoch s' :=
  foldlM_keeps (fun _ _ _ _ one => onGraph_call keeps one) run on

end Keeping

/-! ### Every client follows the recorder -/

/-- The same search with another client state. -/
def attach {τ : Type} (t : Search N τ) (s : σ) : Search N σ :=
  { t with client := s }

/-- Whatever the recorder logs in `g`, a client on the graph is asked to do in `f`, and no
    more. -/
def Follows (c : CycleDetector N σ) (on : σ → Prop) (f : Search N σ → Option (Search N σ))
    (g : Search N (List (Call N)) → Option (Search N (List (Call N)))) : Prop :=
  ∀ t t', g t = some t' → ∃ new, t'.client = t.client ++ new ∧
    ∀ s, on s → f (attach t s) = (replay c new s).map (attach t')

section Follows
variable {c : CycleDetector N σ} {raw : N → List N} {graph : NodeIterator N σ} {nodes : List N}
  {epoch : Nat} {on : σ → Prop} {f f' : Search N σ → Option (Search N σ)}
  {g g' : Search N (List (Call N)) → Option (Search N (List (Call N)))}

theorem follows_congr
    (same : ∀ (t : Search N (List (Call N))) s, on s → f' (attach t s) = f (attach t s))
    (follows : Follows c on f g) : Follows c on f' g := by
  intro t t' run
  obtain ⟨new, log, made⟩ := follows t t' run
  exact ⟨new, log, fun s graph => (same t s graph).trans (made s graph)⟩

theorem follows_pure {h : Search N σ → Search N σ}
    {k : Search N (List (Call N)) → Search N (List (Call N))}
    (silent : ∀ t, (k t).client = t.client) (same : ∀ t s, h (attach t s) = attach (k t) s) :
    Follows c on (fun s => some (h s)) fun t => some (k t) := by
  intro t t' run
  obtain rfl := Option.some.inj run
  refine ⟨[], by simp [silent], ?_⟩
  intro s _
  exact congrArg some (same t s)

theorem follows_call (call : Call N) :
    Follows c on (fun s => call.run c s.client >>= fun client => some { s with client })
      fun t => call.run (recorder raw) t.client >>= fun client => some { t with client } := by
  intro t t' run
  dsimp only at run
  rw [recorder_run] at run
  obtain rfl := Option.some.inj run
  refine ⟨[call], rfl, ?_⟩
  intro s _
  rw [replay_cons]
  dsimp only [attach]
  cases call.run c s <;> rfl

theorem follows_bind (keeps : KeepsGraph c graph)
    (first : Follows c (OnGraph c graph raw nodes epoch) f g)
    (second : Follows c (OnGraph c graph raw nodes epoch) f' g') :
    Follows c (OnGraph c graph raw nodes epoch) (fun s => f s >>= f') fun t => g t >>= g' := by
  intro t t' run
  obtain ⟨t₁, run₁, run₂⟩ := bind_some run
  obtain ⟨new₁, log₁, same₁⟩ := first t t₁ run₁
  obtain ⟨new₂, log₂, same₂⟩ := second t₁ t' run₂
  refine ⟨new₁ ++ new₂, by rw [log₂, log₁, List.append_assoc], ?_⟩
  intro s here
  dsimp only
  rw [same₁ s here, replay_append]
  cases played : replay c new₁ s with
  | none => rfl
  | some s₁ => exact same₂ s₁ (replay_onGraph keeps played here)

theorem follows_foldlM (keeps : KeepsGraph c graph) {α : Type}
    {f : Search N σ → α → Option (Search N σ)}
    {g : Search N (List (Call N)) → α → Option (Search N (List (Call N)))} (l : List α)
    (each : ∀ x ∈ l, Follows c (OnGraph c graph raw nodes epoch) (fun s => f s x) fun t => g t x) :
    Follows c (OnGraph c graph raw nodes epoch) (fun s => l.foldlM f s)
      fun t => l.foldlM g t := by
  induction l with
  | nil => exact follows_pure (fun _ => rfl) fun _ _ => rfl
  | cons x l ih =>
    have head := each x (by simp)
    have tail := ih fun y hy => each y (by simp [hy])
    simp only [List.foldlM_cons]
    exact follows_bind keeps head tail

end Follows

section Simulation
variable [DecidableEq N] {c : CycleDetector N σ} {graph : NodeIterator N σ} {raw : N → List N}
  {nodes : List N} {epoch : Nat} (keeps : KeepsGraph c graph)

theorem attach_lower {τ : Type} (node succRep : N) (t : Search N τ) (s : σ) :
    lower node succRep (attach t s) = attach (lower node succRep t) s := by
  unfold lower
  by_cases less : succRep ∉ t.inComponent ∧ dfsNumOf t succRep < dfsNumOf t node
  · rw [if_pos less]
    exact if_pos less
  · rw [if_neg less]
    exact if_neg less

theorem lower_client {τ : Type} (node succRep : N) (t : Search N τ) :
    (lower node succRep t).client = t.client := by
  unfold lower
  split <;> rfl

include keeps

omit [DecidableEq N] in
theorem enter_same (f : N → Search N σ → Option (Search N σ)) {x : N} {s : Search N σ}
    (member : x ∈ graph.nodes s.client) :
    enter c f x s = (if (s.dfsNum x).isSome then some s else f x s).map fun s => (x, s) := by
  unfold enter
  rw [keeps.getRep s.client x member]
  dsimp only
  split <;> rfl

theorem visitEdge_same (f : N → Search N σ → Option (Search N σ)) (node : N) {x : N}
    {s : Search N σ} (member : x ∈ graph.nodes s.client) : visitEdge c f node s x =
      (if (s.dfsNum x).isSome then some s else f x s) >>= fun s => some (lower node x s) := by
  unfold visitEdge
  rw [enter_same keeps f member]
  cases (if (s.dfsNum x).isSome then some s else f x s) <;> rfl

omit keeps [DecidableEq N] in
theorem follows_unseen {on : σ → Prop} {f : Search N σ → Option (Search N σ)}
    {g : Search N (List (Call N)) → Option (Search N (List (Call N)))} (x : N)
    (visited : Follows c on f g) :
    Follows c on (fun s => if (s.dfsNum x).isSome then some s else f s)
      fun t => if (t.dfsNum x).isSome then some t else g t := by
  intro t t' run
  by_cases seen : (t.dfsNum x).isSome = true
  · obtain rfl := Option.some.inj ((if_pos seen).symm.trans run)
    refine ⟨[], by simp, ?_⟩
    intro s _
    exact if_pos seen
  · obtain ⟨new, log, follows⟩ := visited t t' ((if_neg seen).symm.trans run)
    refine ⟨new, log, ?_⟩
    intro s graph
    exact (if_neg seen).trans (follows s graph)

theorem follows_visitEdge {f : N → Search N σ → Option (Search N σ)}
    {g : N → Search N (List (Call N)) → Option (Search N (List (Call N)))} (node : N) {x : N}
    (nodup : nodes.Nodup) (member : x ∈ nodes)
    (visited : Follows c (OnGraph c graph raw nodes epoch) (f x) (g x)) :
    Follows c (OnGraph c graph raw nodes epoch) (fun s => visitEdge c f node s x)
      fun t => visitEdge (recorder raw) g node t x := by
  have recorded : (fun t => visitEdge (recorder raw) g node t x) = fun t =>
      (if (t.dfsNum x).isSome then some t else g x t) >>= fun t => some (lower node x t) := by
    funext t
    exact visitEdge_same (recorder_keepsGraph raw nodup) g node member
  have direct : ∀ (t : Search N (List (Call N))) s, OnGraph c graph raw nodes epoch s →
      visitEdge c f node (attach t s) x =
        (if ((attach t s).dfsNum x).isSome then some (attach t s) else f x (attach t s)) >>=
          fun s => some (lower node x s) := by
    intro t s here
    exact visitEdge_same keeps f node (s := attach t s) (here.nodes.symm ▸ member)
  have onward : Follows c (OnGraph c graph raw nodes epoch)
      (fun s => (if (s.dfsNum x).isSome then some s else f x s) >>= fun s => some (lower node x s))
      fun t => (if (t.dfsNum x).isSome then some t else g x t) >>= fun t => some (lower node x t) :=
    follows_bind keeps (follows_unseen x visited)
      (follows_pure (lower_client node x) (attach_lower node x))
  rw [recorded]
  exact follows_congr direct onward

omit [DecidableEq N] in
theorem follows_popCycle (node : N) (myTimeStamp : Nat) (stack : List N) :
    Follows c (OnGraph c graph raw nodes epoch) (popCycle c node myTimeStamp stack)
      (popCycle (recorder raw) node myTimeStamp stack) := by
  induction stack with
  | nil => exact follows_pure (fun _ => rfl) fun _ _ => rfl
  | cons cycleNode rest ih =>
    intro t t' run
    unfold popCycle at run
    by_cases older : dfsNumOf t cycleNode < myTimeStamp
    · obtain rfl := Option.some.inj ((if_pos older).symm.trans run)
      refine ⟨[], by simp, ?_⟩
      intro s _
      exact if_pos older
    · rw [if_neg older] at run
      obtain ⟨new, log, follows⟩ := ih _ t' run
      refine ⟨.processNodeOnCycle cycleNode node :: new, by simp [log], ?_⟩
      intro s here
      have call : ∀ s₁, c.processNodeOnCycle cycleNode node s = some s₁ →
          OnGraph c graph raw nodes epoch s₁ := fun s₁ called =>
        @onGraph_call _ _ _ _ _ _ _ keeps (.processNodeOnCycle cycleNode node) _ _ called here
      rw [replay_cons]
      refine (if_neg older).trans ?_
      change c.processNodeOnCycle cycleNode node s >>= _ =
        ((c.processNodeOnCycle cycleNode node s) >>= _).map _
      cases called : c.processNodeOnCycle cycleNode node s with
      | none => rfl
      | some s₁ => exact follows s₁ (call s₁ called)

omit [DecidableEq N] in
theorem follows_close (node : N) (myTimeStamp : Nat) :
    Follows c (OnGraph c graph raw nodes epoch)
      (fun s => if dfsNumOf s node ≠ myTimeStamp then
          some { s with sccStack := node :: s.sccStack }
        else
          (popCycle c node myTimeStamp s.sccStack
              { s with inComponent := node :: s.inComponent }) >>= fun s =>
            (c.processCycleRepNode node s.client) >>= fun client => some { s with client })
      (fun t => if dfsNumOf t node ≠ myTimeStamp then
          some { t with sccStack := node :: t.sccStack }
        else
          (popCycle (recorder raw) node myTimeStamp t.sccStack
              { t with inComponent := node :: t.inComponent }) >>= fun t =>
            ((recorder raw).processCycleRepNode node t.client) >>= fun client =>
              some { t with client }) := by
  intro t t' run
  by_cases lowered : dfsNumOf t node ≠ myTimeStamp
  · obtain rfl := Option.some.inj ((if_pos lowered).symm.trans run)
    refine ⟨[], by simp, ?_⟩
    intro s _
    exact if_pos lowered
  · obtain ⟨new, log, follows⟩ :=
      follows_bind keeps (follows_popCycle keeps node myTimeStamp t.sccStack)
        (follows_call (.processCycleRepNode node)) { t with inComponent := node :: t.inComponent }
        t' ((if_neg lowered).symm.trans run)
    refine ⟨new, log, ?_⟩
    intro s here
    exact (if_neg lowered).trans (follows s here)

theorem follows_visit (nodup : nodes.Nodup) (closed : ∀ v ∈ nodes, ∀ w ∈ raw v, w ∈ nodes)
    (fuel : Nat) {node : N} (member : node ∈ nodes) :
    Follows c (OnGraph c graph raw nodes epoch) (visit c fuel node)
      (visit (recorder raw) fuel node) := by
  induction fuel generalizing node with
  | zero => exact fun t t' run => absurd run (by simp [visit])
  | succ fuel ih =>
    intro t t' run
    by_cases seen : Seen t node
    · have revisited : visit (recorder raw) (fuel + 1) node t = none := if_pos seen
      rw [revisited] at run
      exact absurd run (by simp)
    · have walk : Follows c (OnGraph c graph raw nodes epoch)
          (fun s => (raw node).foldlM (visitEdge c (visit c fuel) node) s)
          fun t => (raw node).foldlM (visitEdge (recorder raw) (visit (recorder raw) fuel) node) t :=
        follows_foldlM keeps _ fun x hx =>
          follows_visitEdge keeps node nodup (closed node member x hx) (ih (closed node member x hx))
      rw [visit_succ fuel node t seen] at run
      obtain ⟨new, log, follows⟩ := follows_bind keeps walk
        (follows_close keeps node t.timestamp) (mark node t) t' run
      refine ⟨new, log, ?_⟩
      intro s here
      rw [visit_succ fuel node (attach t s) seen]
      have kids : c.children (attach t s).client node = raw node := congrFun here.children node
      rw [kids]
      exact follows s here

theorem follows_turn (nodup : nodes.Nodup) (closed : ∀ v ∈ nodes, ∀ w ∈ raw v, w ∈ nodes)
    (fuel : Nat) {x : N} (member : x ∈ nodes) :
    Follows c (OnGraph c graph raw nodes epoch)
      (fun s => (enter c (visit c fuel) x s).map Prod.snd)
      fun t => (enter (recorder raw) (visit (recorder raw) fuel) x t).map Prod.snd := by
  have plain : ∀ {τ : Type} (found : Option (Search N τ)),
      (found.map fun s => (x, s)).map Prod.snd = found := by
    intro τ found
    cases found <;> rfl
  have recorded : (fun t => (enter (recorder raw) (visit (recorder raw) fuel) x t).map Prod.snd) =
      fun t => if (t.dfsNum x).isSome then some t else visit (recorder raw) fuel x t := by
    funext t
    rw [enter_same (recorder_keepsGraph raw nodup) _ member, plain]
  have direct : ∀ (t : Search N (List (Call N))) s, OnGraph c graph raw nodes epoch s →
      (enter c (visit c fuel) x (attach t s)).map Prod.snd =
        if ((attach t s).dfsNum x).isSome then some (attach t s)
        else visit c fuel x (attach t s) := by
    intro t s here
    rw [enter_same keeps _ (s := attach t s) (here.nodes.symm ▸ member), plain]
  rw [recorded]
  exact follows_congr direct (follows_unseen x (follows_visit keeps nodup closed fuel member))

theorem follows_walk (nodup : nodes.Nodup) (closed : ∀ v ∈ nodes, ∀ w ∈ raw v, w ∈ nodes)
    (fuel turns : Nat) : ∀ before after, nodes = before ++ after →
    Follows c (OnGraph c graph raw nodes epoch)
      (walk (fun s => graph.nodes s.client) (fun s => graph.epoch s.client)
        (fun n s => (enter c (visit c fuel) n s).map Prod.snd) turns after.head?)
      (walk (fun t => (fixedNodes nodes nodup).nodes t.client)
        (fun t => (fixedNodes nodes nodup).epoch t.client)
        (fun n t => (enter (recorder raw) (visit (recorder raw) fuel) n t).map Prod.snd) turns
        after.head?) := by
  induction turns with
  | zero =>
    intro before after split
    cases after with
    | nil => exact follows_pure (fun _ => rfl) fun _ _ => rfl
    | cons n after => exact fun t t' run => nomatch run
  | succ turns ih =>
    intro before after split
    cases after with
    | nil => exact follows_pure (fun _ => rfl) fun _ _ => rfl
    | cons n after =>
      intro t t' run
      have member : n ∈ nodes := by rw [split]; simp
      have fresh : n ∉ before := by
        rw [split] at nodup
        exact fun mem => (List.nodup_append.mp nodup).2.2 n mem n (by simp) rfl
      have later : next n nodes = after.head? := by rw [split, next_split fresh]
      obtain ⟨t₁, turned, rest⟩ := bind_some run
      have fixed : ¬ (fixedNodes nodes nodup).epoch t₁.client ≠
          (fixedNodes nodes nodup).epoch t.client := not_not.mpr rfl
      have ahead : next n ((fixedNodes nodes nodup).nodes t₁.client) = after.head? := later
      dsimp only at rest
      rw [if_neg fixed, ahead] at rest
      obtain ⟨new₁, log₁, same₁⟩ := follows_turn keeps nodup closed fuel member t t₁ turned
      obtain ⟨new₂, log₂, same₂⟩ := ih (before ++ [n]) after (by simp [split]) t₁ t' rest
      refine ⟨new₁ ++ new₂, by rw [log₂, log₁, List.append_assoc], ?_⟩
      intro s here
      have turn := same₁ s here
      dsimp only at turn
      rw [List.head?_cons, walk, turn, replay_append]
      cases played : replay c new₁ s with
      | none => rfl
      | some s₁ =>
        have here₁ := replay_onGraph keeps played here
        have valid : ¬ graph.epoch s₁ ≠ graph.epoch s :=
          not_not.mpr (here₁.epoch.trans here.epoch.symm)
        rw [Option.map_some, Option.bind_eq_bind, Option.bind_some]
        have onwards : next n (graph.nodes s₁) = after.head? := by rw [here₁.nodes, later]
        refine (if_neg valid).trans ?_
        dsimp only [attach] at same₂ ⊢
        rw [onwards]
        exact same₂ s₁ here₁

end Simulation

/-! ### What is logged -/

/-- The calls for the nodes of `done`: each node is in one, a component has one root,
and that one is finished after the other members and after what it leads to. -/
structure Reported (raw : N → List N) (done : Set N) (calls : List (Call N)) : Prop where
  once : (calls.map Call.node).Nodup
  all : ∀ v, v ∈ calls.map Call.node ↔ v ∈ done
  onCycle : ∀ m r, .processNodeOnCycle m r ∈ calls ↔
    .processCycleRepNode r ∈ calls ∧ Joined (fun v w => w ∈ raw v) m r ∧ m ≠ r
  root : ∀ v ∈ done, ∃ r, .processCycleRepNode r ∈ calls ∧ Joined (fun v w => w ∈ raw v) v r
  single : ∀ r r', .processCycleRepNode r ∈ calls → .processCycleRepNode r' ∈ calls →
    Joined (fun v w => w ∈ raw v) r r' → r = r'
  members_before : ∀ before r after, calls = before ++ .processCycleRepNode r :: after →
    ∀ m, Joined (fun v w => w ∈ raw v) m r → m ≠ r → .processNodeOnCycle m r ∈ before
  reached_before : ∀ before r after, calls = before ++ .processCycleRepNode r :: after →
    ∀ v, ReflTransGen (fun v w => w ∈ raw v) r v → ¬ Joined (fun v w => w ∈ raw v) v r →
      ∃ r', .processCycleRepNode r' ∈ before ∧ Joined (fun v w => w ∈ raw v) v r'

def componentCalls (r : N) (ms : List N) : List (Call N) :=
  ms.map (fun m => .processNodeOnCycle m r) ++ [.processCycleRepNode r]

theorem reported_start (raw : N → List N) : Reported raw ∅ [] := by
  constructor <;> simp

theorem componentCalls_nodes (r : N) (ms : List N) :
    (componentCalls r ms).map Call.node = ms ++ [r] := by
  simp [componentCalls, Function.comp_def, Call.node]

theorem onCycle_mem {m r r' : N} {ms : List N} :
    .processNodeOnCycle m r' ∈ componentCalls r ms ↔ m ∈ ms ∧ r' = r := by
  simp [componentCalls, eq_comm]

theorem rep_mem {r r' : N} {ms : List N} :
    .processCycleRepNode r' ∈ componentCalls r ms ↔ r' = r := by
  simp [componentCalls]

theorem split_calls {calls before after : List (Call N)} {r r' : N} {ms : List N}
    (split : calls ++ componentCalls r ms = before ++ .processCycleRepNode r' :: after) :
    (∃ rest, calls = before ++ .processCycleRepNode r' :: rest) ∨
      (r' = r ∧ before = calls ++ ms.map fun m => .processNodeOnCycle m r) := by
  let front := ms.map fun m => Call.processNodeOnCycle m r
  have none : .processCycleRepNode r' ∉ front := by simp [front]
  have split : (calls ++ front) ++ [.processCycleRepNode r] =
      before ++ .processCycleRepNode r' :: after := by
    rw [← split, List.append_assoc]
    rfl
  rcases List.eq_nil_or_concat after with rfl | ⟨after, last, rfl⟩
  · obtain ⟨same, end_⟩ := List.append_inj' split rfl
    simp only [List.cons.injEq, Call.processCycleRepNode.injEq, and_true] at end_
    exact .inr ⟨end_.symm, same.symm⟩
  · have shorter : (calls ++ front) ++ [.processCycleRepNode r] =
        (before ++ .processCycleRepNode r' :: after) ++ [last] := by
      rw [split]
      simp
    obtain ⟨same, -⟩ := List.append_inj' shorter rfl
    left
    rcases List.append_eq_append_iff.mp same with ⟨back, -, tail⟩ | ⟨rest, start, tail⟩
    · exact absurd (tail ▸ by simp) none
    · cases rest with
      | nil =>
        rw [List.nil_append] at tail
        exact absurd (tail ▸ by simp) none
      | cons x rest =>
        obtain ⟨rfl, -⟩ := List.cons.inj tail
        exact ⟨rest, start⟩

section
variable {raw : N → List N}

theorem Reported.extend {done : Set N} {calls : List (Call N)} (old : Reported raw done calls)
    {r : N} {ms : List N} (comp : IsComponent (fun v w => w ∈ raw v) done r ms) :
    Reported raw (done ∪ {v | v ∈ r :: ms}) (calls ++ componentCalls r ms) := by
  have rootIn : r ∈ r :: ms := by simp
  have joined : ∀ m, Joined (fun v w => w ∈ raw v) m r ↔ m ∈ r :: ms :=
    fun m => comp.joined_iff rootIn
  obtain ⟨rootApart, nodup⟩ := List.nodup_cons.mp comp.nodup
  have repOld : ∀ r', .processCycleRepNode r' ∈ calls → r' ∈ done := by
    intro r' h
    exact (old.all r').mp (List.mem_map.mpr ⟨_, h, rfl⟩)
  have cycleOld : ∀ m r', .processNodeOnCycle m r' ∈ calls → m ∈ done := by
    intro m r' h
    exact (old.all m).mp (List.mem_map.mpr ⟨_, h, rfl⟩)
  have apart : ∀ v ∈ done, ∀ w ∈ r :: ms, ¬ Joined (fun v w => w ∈ raw v) v w := by
    intro v hv w hw both
    exact comp.fresh w hw (comp.done_path both.1 hv)
  constructor
  case once =>
    rw [List.map_append, componentCalls_nodes, List.nodup_append]
    refine ⟨old.once, ?_, ?_⟩
    · rw [List.nodup_append]
      exact ⟨nodup, by simp, fun m hm x hx same => rootApart (by simp_all)⟩
    · intro v hv w hw same
      have member : w ∈ r :: ms := by
        rw [List.mem_append, List.mem_singleton] at hw
        rw [List.mem_cons]
        exact hw.symm
      exact comp.fresh w member (same ▸ (old.all v).mp hv)
  case all =>
    intro v
    rw [List.map_append, componentCalls_nodes, List.mem_append, old.all, List.mem_append,
      List.mem_singleton, or_comm (a := v ∈ ms), Set.mem_union, Set.mem_ofPred_eq, List.mem_cons]
  case onCycle =>
    intro m r'
    simp only [List.mem_append, onCycle_mem, rep_mem]
    constructor
    · rintro (h | ⟨h, rfl⟩)
      · obtain ⟨root, both, other⟩ := (old.onCycle m r').mp h
        exact ⟨.inl root, both, other⟩
      · exact ⟨.inr rfl, (joined m).mpr (by simp [h]), fun same => rootApart (same ▸ h)⟩
    · rintro ⟨root | rfl, both, other⟩
      · exact .inl ((old.onCycle m r').mpr ⟨root, both, other⟩)
      · rcases List.mem_cons.mp ((joined m).mp both) with same | member
        · exact absurd same other
        · exact .inr ⟨member, rfl⟩
  case root =>
    rintro v (hv | hv)
    · obtain ⟨r', root, both⟩ := old.root v hv
      exact ⟨r', List.mem_append_left _ root, both⟩
    · exact ⟨r, List.mem_append_right _ (rep_mem.mpr rfl), (joined v).mpr hv⟩
  case single =>
    intro a b ha hb both
    rw [List.mem_append, rep_mem] at ha hb
    rcases ha with ha | rfl <;> rcases hb with hb | rfl
    · exact old.single a b ha hb both
    · exact absurd both (apart a (repOld a ha) b rootIn)
    · exact absurd ⟨both.2, both.1⟩ (apart b (repOld b hb) a rootIn)
    · rfl
  case members_before =>
    intro before a after split m both other
    rcases split_calls split with ⟨rest, earlier⟩ | ⟨rfl, rfl⟩
    · exact old.members_before before a rest earlier m both other
    · rcases List.mem_cons.mp ((joined m).mp both) with same | member
      · exact absurd same other
      · exact List.mem_append_right _ (List.mem_map.mpr ⟨m, member, rfl⟩)
  case reached_before =>
    intro before a after split v path elsewhere
    rcases split_calls split with ⟨rest, earlier⟩ | ⟨rfl, rfl⟩
    · exact old.reached_before before a rest earlier v path elsewhere
    · have finished : v ∈ done := by
        rcases comp.reached rootIn path with finished | member
        · exact finished
        · exact absurd ((joined v).mpr member) elsewhere
      obtain ⟨r', root, both⟩ := old.root v finished
      exact ⟨r', List.mem_append_left _ root, both⟩

end

section
variable [DecidableEq N] {raw : N → List N}

omit [DecidableEq N] in
theorem process_recorder (r : N) (ms : List N) (log : List (Call N)) :
    process (recorder raw) r ms log = some (log ++ componentCalls r ms) := by
  have members : ms.foldlM (fun log m => (recorder raw).processNodeOnCycle m r log) log =
      some (log ++ ms.map fun m => .processNodeOnCycle m r) := by
    induction ms generalizing log with
    | nil => simp
    | cons m ms ih =>
      rw [List.foldlM_cons]
      refine (ih (log ++ [.processNodeOnCycle m r])).trans ?_
      simp
  unfold process
  rw [members]
  simp [recorder, componentCalls]

omit [DecidableEq N] in
theorem recorder_lawful (carrier : Finset N) (closed : ∀ v ∈ carrier, ∀ w ∈ raw v, w ∈ carrier) :
    Lawful (recorder raw) carrier raw id (Reported raw) where
  inside := closed
  children _ _ _ _ _ _ := rfl
  keeps _ _ good _ _ := good
  open_rep _ _ _ _ _ _ := rfl
  done_rep _ _ _ _ _ done := done
  finish done log good r ms _ comp := by
    have edges : Edge raw id = fun v w => w ∈ raw v := by
      funext v w
      simp [Edge]
    exact ⟨_, process_recorder r ms log, good.extend (edges ▸ comp)⟩

theorem recorder_grows {nodes : List N} (nodup : nodes.Nodup) {fuel : Nat}
    (enough : nodes.length ≤ fuel) :
    Grows (fixedNodes nodes nodup) (fun _ _ => True) nodes.toFinset id (Reported raw) fuel where
  size _ _ _ := enough
  members _ _ _ _ mem := List.mem_toFinset.mpr mem
  order _ _ _ _ := List.Sublist.refl _

theorem recorder_run_spec {nodes : List N} (nodup : nodes.Nodup)
    (closed : ∀ v ∈ nodes, ∀ w ∈ raw v, w ∈ nodes) {fuel : Nat} (enough : nodes.length ≤ fuel) :
    ∃ t, runOnGraph (recorder raw) (fixedNodes nodes nodup) fuel [] = some t ∧
      t.sccStack = [] ∧ Reported raw {v | v ∈ nodes} t.client := by
  have law : Lawful (recorder raw) nodes.toFinset raw id (Reported raw) := by
    apply recorder_lawful
    simpa using closed
  have respects : Respects (recorder raw) fun _ _ => True := by
    constructor <;> intros <;> trivial
  have provides : Provides (recorder raw) (fun _ _ => True) fun _ _ => True := by
    constructor <;> intros <;> trivial
  rcases runOnGraph_spec law respects provides (recorder_grows nodup enough)
    (nodes.toFinset_card_le.trans enough) (reported_start raw) with
    ⟨t, run, waiting, _, done⟩ | ⟨_, _, s, s', _, _, _, broken⟩
  · obtain ⟨empty, τ, inv⟩ := waiting.idle
    have all : {v | v ∈ t.inComponent} = {v | v ∈ nodes} := by
      ext v
      constructor
      · intro finished
        simpa using inv.inside v ((inv.known v).mpr (.inl finished))
      · exact done v
    exact ⟨t, run, empty, all ▸ inv.good⟩
  · exact absurd rfl broken

/-- On every graph whose edges stay inside it, with a call depth of as many as its nodes, the
detector makes the same calls to every client: those of `Reported`. No assertion fails
and the stack ends empty; the run ends early only where the client's own call does. -/
theorem runOnGraph_calls {nodes : List N} (closed : ∀ v ∈ nodes, ∀ w ∈ raw v, w ∈ nodes)
    {fuel : Nat} (enough : nodes.length ≤ fuel) :
    ∃ (calls : List (Call N)) (ended : Search N Unit),
      Reported raw {v | v ∈ nodes} calls ∧ ended.sccStack = [] ∧
      ∀ {σ : Type} (c : CycleDetector N σ) (graph : NodeIterator N σ), KeepsGraph c graph →
        ∀ client, c.children client = raw → graph.nodes client = nodes →
          runOnGraph c graph fuel client = (replay c calls client).map (attach ended) := by
  have inside : ∀ v ∈ nodes.dedup, ∀ w ∈ raw v, w ∈ nodes.dedup := by simpa using closed
  obtain ⟨t, run, empty, reported⟩ := recorder_run_spec nodes.nodup_dedup inside
    (nodes.dedup_sublist.length_le.trans enough)
  refine ⟨t.client, attach t (), by simpa using reported, empty, ?_⟩
  intro σ c graph keeps client kids same
  have once : nodes.dedup = nodes := List.Nodup.dedup (same ▸ graph.nodup client)
  obtain ⟨t', walked, checked⟩ := bind_some run
  have same' : t' = t := by
    split at checked
    · simp at checked
    · exact Option.some.inj checked
  subst same'
  have on : OnGraph c graph raw nodes.dedup (graph.epoch client) client :=
    ⟨kids, same.trans once.symm, rfl⟩
  obtain ⟨new, log, follows⟩ := follows_walk keeps nodes.nodup_dedup inside fuel
    fuel [] nodes.dedup rfl (Search.start []) t' walked
  have fromStart := follows client on
  have logged : t'.client = new := log
  have start : (nodes.dedup).head? = (graph.nodes client).head? := by rw [once, same]
  unfold runOnGraph
  rw [start] at fromStart
  refine (congrArg (· >>= _) fromStart).trans ?_
  rw [logged]
  cases replay c new client with
  | none => rfl
  | some s => exact if_neg (not_not.mpr empty)

/-- The triangle behind node 0: it is finished first, under the node entered from 0. -/
theorem runOnGraph_triangle :
    ∃ calls, Reported (fun n => if n = 0 then [2] else [n % 3 + 1]) {v | v ∈ [0, 1, 2, 3]} calls ∧
      ((runOnGraph (recorder fun n => if n = 0 then [2] else [n % 3 + 1])
        (fixedNodes [0, 1, 2, 3] (by decide)) 4 []).map
        fun s => (s.sccStack, s.client)) = some ([], calls) := by
  obtain ⟨calls, ended, reported, empty, runs⟩ :=
    @runOnGraph_calls Nat _ (fun n => if n = 0 then [2] else [n % 3 + 1]) [0, 1, 2, 3] (by decide)
      4 (by decide)
  have run := runs (recorder fun n => if n = 0 then [2] else [n % 3 + 1])
    (fixedNodes [0, 1, 2, 3] (by decide)) (recorder_keepsGraph _ _) [] rfl rfl
  refine ⟨calls, reported, ?_⟩
  rw [run, replay_recorder]
  simp [attach, empty]

end
end ProgramSlicer.Andersen.CycleDetector
