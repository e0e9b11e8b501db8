import ProgramSlicer.Library.FormattedInput
import ProgramSlicer.BackwardSlice

/-!
`readInit` of both slicers, which reads `slice.conf` and marks the nodes to begin
with. The loop over the stream is on fuel: the file can be such that it never ends.
`useRange` is written there and read nowhere; it is left out.
-/
namespace ProgramSlicer
open FormattedInput FoldRules

/-- The locals of the loop. The three numbers start uninitialised. -/
structure Reading where
  input : IStream
  funcName : List Char := []
  instNum : Int
  lower : Int
  upper : Int
  toSliceList : List Char → List Int := fun _ => []
  lineToBounds : Int → Int × Int := fun _ => (0, 0)

namespace Reading

def extractFuncName (r : Reading) : Reading :=
  let (funcName, input) := extractString r.input r.funcName
  { r with funcName, input }

/-- `in >> n` for the local that `set` writes and that holds `old`. -/
def extractNumber (old : Int) (set : Int → Reading → Reading) (r : Reading) : Reading :=
  let (n, input) := extractInt r.input old
  { set n r with input }

def extractInstNum (r : Reading) : Reading :=
  r.extractNumber r.instNum fun n r => { r with instNum := n }

def extractLower (r : Reading) : Reading :=
  r.extractNumber r.lower fun n r => { r with lower := n }

def extractUpper (r : Reading) : Reading :=
  r.extractNumber r.upper fun n r => { r with upper := n }

/-- `upper` is not tried where `lower` fails. -/
def extractFields (r : Reading) : Reading :=
  let r := r.extractFuncName.extractInstNum.extractLower
  if r.input.failbit then r else r.extractUpper

def insertEntry (r : Reading) : Reading :=
  { r with
    toSliceList := Function.update r.toSliceList r.funcName
      ((r.toSliceList r.funcName).insert r.instNum)
    lineToBounds := Function.update r.lineToBounds r.instNum (r.lower, r.upper) }

def loop : Nat → Reading → Option Reading
  | 0, _ => none
  | fuel + 1, r =>
    let r := r.extractFields
    if r.input.eofbit then some r else loop fuel r.insertEntry

end Reading

/-- The loop over the instructions; `count` is the position in the function. -/
def markInFunction {σ : Type} (mark : InstId → σ → σ) (toSliceListForFunc : List Int)
    (F : Function) (marks : σ) : σ :=
  F.insts.zipIdx.foldl (fun marks (I, count) =>
    if (count : Int) ∈ toSliceListForFunc then mark I.id marks else marks) marks

def markListed {σ : Type} (mark : InstId → σ → σ) (names : FuncId → List Char)
    (toSliceList : List Char → List Int) (M : Module) (marks : σ) : σ :=
  M.functions.foldl (fun marks F =>
    let toSliceListForFunc := toSliceList (names F.id)
    if toSliceListForFunc.isEmpty then marks
    else markInFunction mark toSliceListForFunc F marks) marks

/-- `sdg.getInstNodeMap()[I]` makes the entry where there is none. -/
structure Marks where
  instNodeMap : NodeMap InstId
  markedNodes : List NodePtr := []

namespace ForwardSlice

def markNode (i : InstId) (marks : Marks) : Marks where
  instNodeMap := marks.instNodeMap.index i
  markedNodes := marks.markedNodes.insert (.inst i)

def readInit (fuel : Nat) (names : FuncId → List Char) (M : Module)
    (instNodeMap : NodeMap InstId) (r : Reading) : Option Marks := do
  let r ← r.loop fuel
  some (markListed markNode names r.toSliceList M { instNodeMap })

end ForwardSlice

namespace BackSlice

structure BoundedMarks extends Marks where
  boundsMap : NodePtr → Option (Int × Int) := fun _ => none

def markNode (bounds : Int × Int) (i : InstId) (marks : BoundedMarks) : BoundedMarks where
  instNodeMap := marks.instNodeMap.index i
  markedNodes := marks.markedNodes.insert (.inst i)
  boundsMap := Function.update marks.boundsMap (.inst i) (some bounds)

/-- The bounds are looked up under the `instNum` that parsing left over. -/
def readInit (fuel : Nat) (names : FuncId → List Char) (M : Module)
    (instNodeMap : NodeMap InstId) (r : Reading) : Option BoundedMarks := do
  let r ← r.loop fuel
  some (markListed (markNode (r.lineToBounds r.instNum)) names r.toSliceList M { instNodeMap })

end BackSlice

def opened (text : List Char) (instNum lower upper : Int) : Reading :=
  { input := reading text, instNum, lower, upper }

/-! ### The file as a grammar -/

/-- The name, the number and the bounds, and what follows them. -/
inductive Record (text name : List Char) (number lower upper : Numeral) (rest : List Char) : Prop
  | fields {afterName afterNumber afterLower : List Char} : WordThen text name afterName →
      IntThen afterName number afterNumber → IntThen afterNumber lower afterLower →
      IntThen afterLower upper rest → Record text name number lower upper rest

/-- The end of the text is touched in the course of one entry. -/
inductive RunsOut (text : List Char) : Prop
  | name : WordToEnd text → RunsOut text
  | number {name rest : List Char} : WordThen text name rest → IntToEnd rest → RunsOut text
  | lower {name afterName rest : List Char} {number : Numeral} : WordThen text name afterName →
      IntThen afterName number rest → IntToEnd rest → RunsOut text
  | upper {name afterName afterNumber rest : List Char} {number lower : Numeral} :
      WordThen text name afterName → IntThen afterName number afterNumber →
      IntThen afterNumber lower rest → IntToEnd rest → RunsOut text

/-- Any number of whole entries, and one in which the text runs out. -/
inductive Ends : List Char → Prop
  | stop {text : List Char} : RunsOut text → Ends text
  | record {text name rest : List Char} {number lower upper : Numeral} :
      Record text name number lower upper rest → Ends rest → Ends text

namespace Reading

/-! ### What one round extracts -/

/-- Nothing more can be extracted, with or without the flag that the loop tests. -/
structure Halted (eof : Bool) (r : Reading) : Prop where
  stopped : r.input.eofbit = true ∨ r.input.failbit = true
  flag : r.input.eofbit = eof

section Halted
variable {eof : Bool} {r : Reading}

theorem extractFuncName_halted (halted : r.Halted eof) : r.extractFuncName.Halted eof := by
  unfold extractFuncName
  rw [extractString_stopped halted.stopped]
  exact ⟨.inr rfl, halted.flag⟩

theorem extractNumber_halted {old : Int} {set : Int → Reading → Reading}
    (halted : r.Halted eof) : (r.extractNumber old set).Halted eof := by
  unfold extractNumber
  rw [extractInt_stopped halted.stopped]
  exact ⟨.inr rfl, halted.flag⟩

theorem halted_of_lower (halted : r.extractFuncName.extractInstNum.extractLower.Halted eof) :
    r.extractFields.Halted eof := by
  unfold extractFields
  dsimp only
  split
  · exact halted
  · exact extractNumber_halted halted

theorem halted_of_instNum (halted : r.extractFuncName.extractInstNum.Halted eof) :
    r.extractFields.Halted eof :=
  halted_of_lower (extractNumber_halted halted)

theorem halted_of_funcName (halted : r.extractFuncName.Halted eof) : r.extractFields.Halted eof :=
  halted_of_instNum (extractNumber_halted halted)

theorem loop_halted (halted : r.Halted false) (fuel : Nat) : r.loop fuel = none := by
  induction fuel generalizing r with
  | zero => rfl
  | succ fuel ih =>
    have again := halted_of_funcName (extractFuncName_halted halted)
    have next : r.extractFields.insertEntry.Halted false := ⟨again.stopped, again.flag⟩
    rw [loop, if_neg (by simp [again.flag])]
    exact ih next

end Halted

section Extraction
variable {r : Reading} {text rest name : List Char} {n : Numeral} {old : Int}
  {set : Int → Reading → Reading} (here : r.input = reading text)
include here

theorem extractFuncName_then (word : WordThen text name rest) :
    r.extractFuncName = { r with funcName := name, input := reading rest } := by
  unfold extractFuncName
  rw [here, extractString_then word]

theorem extractFuncName_end (word : WordToEnd text) : r.extractFuncName.Halted true := by
  have touched := extractString_end word r.funcName
  unfold extractFuncName
  rw [here]
  exact ⟨.inl touched, touched⟩

theorem extractNumber_then (number : IntThen text n rest) :
    r.extractNumber old set = { set n.value r with input := reading rest } := by
  unfold extractNumber
  rw [here, extractInt_then number]

theorem extractNumber_end (number : IntToEnd text) : (r.extractNumber old set).Halted true := by
  have touched := extractInt_end number old
  unfold extractNumber
  rw [here]
  exact ⟨.inl touched, touched⟩

theorem extractNumber_fails {v : Int}
    (fails : extractInt (reading text) old = (v, ⟨rest, false, true⟩)) :
    (r.extractNumber old set).Halted false := by
  unfold extractNumber
  rw [here, fails]
  exact ⟨.inr rfl, rfl⟩

section Fields
variable {afterName afterNumber afterLower : List Char} {number lower upper : Numeral}
  (word : WordThen text name afterName) (first : IntThen afterName number afterNumber)
include word first

theorem after_instNum : r.extractFuncName.extractInstNum =
    { r with funcName := name, instNum := number.value, input := reading afterNumber } := by
  rw [extractFuncName_then here word]
  exact extractNumber_then rfl first

variable (second : IntThen afterNumber lower afterLower)
include second

theorem after_lower : r.extractFuncName.extractInstNum.extractLower =
    { r with
      funcName := name, instNum := number.value, lower := lower.value
      input := reading afterLower } := by
  rw [after_instNum here word first]
  exact extractNumber_then rfl second

theorem upper_tried : r.extractFields = extractUpper { r with
    funcName := name, instNum := number.value, lower := lower.value
    input := reading afterLower } := by
  unfold extractFields
  rw [after_lower here word first second]
  exact if_neg (by simp [reading])

end Fields

theorem extractFields_record {number lower upper : Numeral}
    (entry : Record text name number lower upper rest) :
    r.extractFields = { r with
      funcName := name, instNum := number.value, lower := lower.value, upper := upper.value
      input := reading rest } := by
  obtain ⟨word, first, second, third⟩ := entry
  rw [upper_tried here word first second]
  exact extractNumber_then rfl third

theorem extractFields_runsOut (out : RunsOut text) : r.extractFields.Halted true := by
  cases out with
  | name word => exact halted_of_funcName (extractFuncName_end here word)
  | number word first =>
    apply halted_of_instNum
    rw [extractFuncName_then here word]
    exact extractNumber_end rfl first
  | lower word first second =>
    apply halted_of_lower
    rw [after_instNum here word first]
    exact extractNumber_end rfl second
  | upper word first second third =>
    rw [upper_tried here word first second]
    exact extractNumber_end rfl third

/-- An entry is whole, or the text runs out in it, or it is malformed. -/
theorem extractFields_cases : RunsOut text ∨
    (∃ name number lower upper rest, Record text name number lower upper rest) ∨
    r.extractFields.Halted false := by
  rcases word_cases text with out | ⟨name, afterName, word⟩
  · exact .inl (.name out)
  rcases int_cases afterName with out | ⟨number, afterNumber, first⟩ | fails
  · exact .inl (.number word out)
  · rcases int_cases afterNumber with out | ⟨lower, afterLower, second⟩ | fails
    · exact .inl (.lower word first out)
    · rcases int_cases afterLower with out | ⟨upper, rest, third⟩ | fails
      · exact .inl (.upper word first second out)
      · exact .inr (.inl ⟨name, number, lower, upper, rest, word, first, second, third⟩)
      · obtain ⟨v, rest, fails⟩ := fails r.upper
        right; right
        rw [upper_tried here word first second]
        exact extractNumber_fails rfl fails
    · obtain ⟨v, rest, fails⟩ := fails r.lower
      right; right
      apply halted_of_lower
      rw [after_instNum here word first]
      exact extractNumber_fails rfl fails
  · obtain ⟨v, rest, fails⟩ := fails r.instNum
    right; right
    apply halted_of_instNum
    rw [extractFuncName_then here word]
    exact extractNumber_fails rfl fails

end Extraction

/-! ### The loop -/

theorem loop_next {r : Reading} (more : r.extractFields.input.eofbit = false) (fuel : Nat) :
    r.loop (fuel + 1) = r.extractFields.insertEntry.loop fuel := by
  rw [loop]
  exact if_neg (by simp [more])

theorem loop_last {r : Reading} (touched : r.extractFields.input.eofbit = true) (fuel : Nat) :
    r.loop (fuel + 1) = some r.extractFields := by
  rw [loop]
  exact if_pos touched

theorem ends_of_loop {fuel : Nat} {r r' : Reading} {text : List Char}
    (here : r.input = reading text) (run : r.loop fuel = some r') : Ends text := by
  induction fuel generalizing r text with
  | zero => cases run
  | succ fuel ih =>
    rcases extractFields_cases here with out | ⟨name, number, lower, upper, rest, entry⟩ | halted
    · exact .stop out
    · have round := extractFields_record here entry
      rw [loop_next (by rw [round]; rfl)] at run
      exact .record entry (ih (by rw [round]; rfl) run)
    · have next : r.extractFields.insertEntry.Halted false := ⟨halted.stopped, halted.flag⟩
      rw [loop_next halted.flag, loop_halted next] at run
      cases run

theorem loop_of_ends {text : List Char} (ends : Ends text) {r : Reading}
    (here : r.input = reading text) : ∃ fuel r', r.loop fuel = some r' := by
  induction ends generalizing r with
  | stop out => exact ⟨1, _, loop_last (extractFields_runsOut here out).flag 0⟩
  | record entry _ ih =>
    have round := extractFields_record here entry
    obtain ⟨fuel, r', run⟩ := @ih r.extractFields.insertEntry (by rw [round]; rfl)
    exact ⟨fuel + 1, r', by rw [loop_next (by rw [round]; rfl), run]⟩

end Reading

theorem loop_ends_iff {text : List Char} {r : Reading} (here : r.input = reading text) :
    (∃ fuel r', r.loop fuel = some r') ↔ Ends text := by
  constructor
  · intro ⟨_, _, run⟩
    exact Reading.ends_of_loop here run
  · intro ends
    exact Reading.loop_of_ends ends here

section Termination
variable (names : FuncId → List Char) (M : Module) (instNodeMap : NodeMap InstId)

theorem readInit_runs_iff (fuel : Nat) (r : Reading) :
    ((∃ marks, BackSlice.readInit fuel names M instNodeMap r = some marks) ↔
      ∃ r', r.loop fuel = some r') ∧
    ((∃ marks, ForwardSlice.readInit fuel names M instNodeMap r = some marks) ↔
      ∃ r', r.loop fuel = some r') := by
  unfold BackSlice.readInit ForwardSlice.readInit
  cases r.loop fuel <;> simp

/-- The loop comes to its end exactly on a sequence of whole entries, of which the
    last may break off anywhere. -/
theorem readInit_terminates_iff (text : List Char) (instNum lower upper : Int) :
    ((∃ fuel marks, BackSlice.readInit fuel names M instNodeMap
      (opened text instNum lower upper) = some marks) ↔ Ends text) ∧
    ((∃ fuel marks, ForwardSlice.readInit fuel names M instNodeMap
      (opened text instNum lower upper) = some marks) ↔ Ends text) := by
  have runs := fun fuel => readInit_runs_iff names M instNodeMap fuel
    (opened text instNum lower upper)
  rw [exists_congr fun fuel => (runs fuel).1, exists_congr fun fuel => (runs fuel).2]
  exact ⟨loop_ends_iff rfl, loop_ends_iff rfl⟩

end Termination

def boundsFree : Reading := opened "main 0\nmain 1\n".toList 0 0 0

theorem boundsFree_loops (fuel : Nat) : boundsFree.loop fuel = none := by
  cases fuel with
  | zero => rfl
  | succ fuel =>
    have halted : boundsFree.extractFields.insertEntry.Halted false := ⟨.inr (by decide), by decide⟩
    rw [Reading.loop_next (by decide), Reading.loop_halted halted]

theorem boundsFree_never_ends :
    (¬ ∃ fuel marks, BackSlice.readInit fuel (fun _ => "main".toList) straightLine []
      boundsFree = some marks) ∧
    ¬ ∃ fuel marks, ForwardSlice.readInit fuel (fun _ => "main".toList) straightLine []
      boundsFree = some marks := by
  constructor
  · intro ⟨fuel, marks, run⟩
    obtain ⟨r', loops⟩ := (readInit_runs_iff _ _ _ fuel _).1.mp ⟨marks, run⟩
    rw [boundsFree_loops fuel] at loops
    cases loops
  · intro ⟨fuel, marks, run⟩
    obtain ⟨r', loops⟩ := (readInit_runs_iff _ _ _ fuel _).2.mp ⟨marks, run⟩
    rw [boundsFree_loops fuel] at loops
    cases loops

end ProgramSlicer
