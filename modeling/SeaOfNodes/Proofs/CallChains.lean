import Mathlib.Data.List.Nodup
import SeaOfNodes.Graph.Builder
import SeaOfNodes.Pipeline.Run
import SeaOfNodes.Proofs.Flow
import SeaOfNodes.Proofs.Liveness

/-!
Which functions stay in a program.

A function *calls* a name if one of its live nodes does, and the entry point *reaches* what a chain
of such calls leads to. Removing the unused functions keeps what the entry point reaches and nothing
else (`UnusedFunctions.onProgram_exact`). The search that decides it goes over positions; with
different names, positions and names are the same thing.
-/

namespace SeaOfNodes

namespace Graph

/-- A live node calls `f`. -/
def CallsTo (g : Graph) (f : String) : Prop :=
  ∃ n x, g.Live n ∧ g.nodes[n]? = some x ∧ x.op = .call f

/-- The names that the live calls of a graph mention can be told if it can be walked. -/
theorem callees_of_walk {g : Graph} {w : Walk} (h : Walk.run g = .ok w) :
    ∃ names, g.callees = .ok names ∧ ∀ f, f ∈ names ↔ g.CallsTo f := by
  have hc := Walk.complete_of_run h
  have hlive : ∀ n, n ∈ w.live.toList ↔ g.Live n := fun n =>
    BitSet.mem_toList.trans (hc.contains_iff n)
  have hloop : ∃ names, g.callees = .ok names ∧ ∀ f, f ∈ names ↔
      ∃ n ∈ w.live.toList, ∃ x, g.nodes[n]? = some x ∧ x.op = .call f := by
    unfold callees
    rw [bind_of_ok (show g.live = .ok w.live from bind_of_ok h)]
    refine exists_foldlM (I := fun done names => ∀ f : String, f ∈ names ↔
      ∃ n ∈ done, ∃ x : Node, g.nodes[n]? = some x ∧ x.op = .call f) (by simp)
      fun done n rest names hsplit hnames => ?_
    have hn : g.Live n := (hlive n).mp (hsplit ▸ List.mem_append_right _ List.mem_cons_self)
    have hlt : n < g.size := hc.capacity ▸ BitSet.contains_lt ((hc.contains_iff n).mpr hn)
    obtain ⟨x, hx⟩ := exists_node_of_lt hlt
    rw [bind_of_ok (node_eq_ok_iff.mpr hx)]
    -- a call adds its name, unless an earlier one has done so
    have hadd (more : List String) (hmore : ∀ f, f ∈ more ↔ f ∈ names ∨ x.op = .call f)
        (f : String) :
        f ∈ more ↔ ∃ m ∈ done ++ [n], ∃ y, g.nodes[m]? = some y ∧ y.op = .call f := by
      rw [hmore, hnames]
      simp [or_and_right, exists_or, hx]
    split
    next callee hop =>
      refine ⟨_, rfl, hadd _ fun f => ?_⟩
      rw [hop, Op.call.injEq]
      split
      next hseen =>
        have hseen : callee ∈ names := by simpa using hseen
        exact ⟨.inl, fun h => h.elim id fun h => h ▸ hseen⟩
      next => simp [eq_comm]
    next hop => exact ⟨_, rfl, hadd _ fun f => ⟨.inl, fun h => h.elim id fun h => (hop f h).elim⟩⟩
  obtain ⟨names, hnames, hmem⟩ := hloop
  refine ⟨names, hnames, fun f => (hmem f).trans ?_⟩
  constructor
  · rintro ⟨n, hn, x, hx, hop⟩
    exact ⟨n, x, (hlive n).mp hn, hx, hop⟩
  · rintro ⟨n, x, hn, hx, hop⟩
    exact ⟨n, (hlive n).mpr hn, x, hx, hop⟩

theorem callees_of_error {g : Graph} {e : Error} (h : Walk.run g = .error e) :
    g.callees = .error e :=
  bind_of_error (bind_of_error h)

end Graph

namespace Program

/-- A function named `f` has a live call of `f'`. -/
def Calls (p : Program) (f f' : String) : Prop :=
  ∃ g ∈ p.functions, g.name = f ∧ g.CallsTo f'

/-- A chain of live calls leads from `entry` to `f`. -/
def Reaches (p : Program) (entry f : String) : Prop := Relation.ReflTransGen p.Calls entry f

/-! ### Positions and names -/

theorem exists_of_position? {p : Program} {f : String} {i : Nat} (h : p.position? f = some i) :
    ∃ g, p.functions[i]? = some g ∧ g.name = f := by
  obtain ⟨⟨g, j⟩, hfind, rfl⟩ := Option.map_eq_some_iff.mp h
  have hmem := List.mem_reverse.mp (List.mem_of_find?_eq_some hfind)
  exact ⟨g, List.mem_zipIdx_iff_getElem?.mp hmem, by simpa using List.find?_some hfind⟩

theorem position?_eq_none {p : Program} {f : String} : p.position? f = none ↔ f ∉ p.names := by
  constructor
  · intro h hf
    obtain ⟨g, hg, rfl⟩ := List.mem_map.mp hf
    obtain ⟨i, hi⟩ := List.mem_iff_getElem?.mp hg
    have hnone := List.find?_eq_none.mp (Option.map_eq_none_iff.mp h) (g, i)
      (List.mem_reverse.mpr (List.mem_zipIdx_iff_getElem?.mpr hi))
    simp at hnone
  · intro hf
    cases h : p.position? f with
    | none => rfl
    | some i =>
      obtain ⟨g, hg, rfl⟩ := exists_of_position? h
      exact absurd (List.mem_map_of_mem (List.mem_of_getElem? hg)) hf

/-- Under different names a name has one position. -/
theorem position?_of_getElem? {p : Program} (hnames : p.names.Nodup) {i : Nat} {g : Graph}
    (hg : p.functions[i]? = some g) : p.position? g.name = some i := by
  cases h : p.position? g.name with
  | none => exact absurd (List.mem_map_of_mem (List.mem_of_getElem? hg)) (position?_eq_none.mp h)
  | some j =>
    obtain ⟨g', hg', hname⟩ := exists_of_position? h
    have hi : p.names[i]? = some g.name := by simp [names, hg]
    have hj : p.names[j]? = some g.name := by simp [names, hg', hname]
    have hlt : i < p.names.length := (List.getElem?_eq_some_iff.mp hi).1
    rw [(List.getElem?_inj hlt hnames).mp (hi.trans hj.symm)]

/-! ### The search -/

/-- `next` lists for each position the positions of the functions called there. -/
def CallsListed (p : Program) (next : Nat → List Nat) : Prop :=
  ∀ i j, j ∈ next i ↔
    ∃ (g : Graph) (f : String), p.functions[i]? = some g ∧ g.CallsTo f ∧ p.position? f = some j

/-- Calls can be told if every function can be walked. -/
theorem exists_calls {p : Program} (hwalk : ∀ g ∈ p.functions, ∃ w, Walk.run g = .ok w) :
    ∃ rows, p.calls = .ok rows ∧ p.CallsListed fun i => rows[i]?.getD [] := by
  let row (g : Graph) : List Nat := (g.callees.toOption.getD []).filterMap p.position?
  have hrow : ∀ g ∈ p.functions,
      (do return (← g.callees).filterMap p.position?) = Except.ok (row g) ∧
        ∀ j, j ∈ row g ↔ ∃ f, g.CallsTo f ∧ p.position? f = some j := by
    intro g hg
    obtain ⟨w, hw⟩ := hwalk g hg
    obtain ⟨names, hnames, hmem⟩ := Graph.callees_of_walk hw
    refine ⟨?_, fun j => ?_⟩
    · rw [bind_of_ok hnames]
      simp [row, hnames, Except.toOption, pure, Except.pure]
    · simp [row, hnames, Except.toOption, hmem]
  refine ⟨p.functions.map row, mapM_of_eq_ok fun g hg => (hrow g hg).1, fun i j => ?_⟩
  show j ∈ (p.functions.map row)[i]?.getD [] ↔ _
  rw [List.getElem?_map]
  cases hg : p.functions[i]? with
  | none => simp
  | some g => simp [(hrow g (List.mem_of_getElem? hg)).2 j]

section Search

variable {p : Program} {next : Nat → List Nat} {entry : String} {root : Nat}

theorem lt_length_of_position? {f : String} {i : Nat} (h : p.position? f = some i) :
    i < p.length := by
  obtain ⟨g, hg, -⟩ := exists_of_position? h
  exact (List.getElem?_eq_some_iff.mp hg).1

/-- No excess: a path of positions is a chain of calls. -/
theorem CallsListed.reaches_name (hnext : p.CallsListed next)
    (hroot : p.position? entry = some root) {i : Nat} (h : BitSet.Reaches next [root] i) :
    ∃ g, p.functions[i]? = some g ∧ p.Reaches entry g.name := by
  obtain ⟨_, hmem, hpath⟩ := h
  obtain rfl := List.mem_singleton.mp hmem
  induction hpath with
  | refl =>
    obtain ⟨g, hg, rfl⟩ := exists_of_position? hroot
    exact ⟨g, hg, .refl⟩
  | tail _ hstep ih =>
    obtain ⟨g, hg, hreach⟩ := ih
    obtain ⟨g', f, hg', hcall, hf⟩ := (hnext _ _).mp hstep
    cases hg.symm.trans hg'
    obtain ⟨k, hk, rfl⟩ := exists_of_position? hf
    exact ⟨k, hk, hreach.tail ⟨g, List.mem_of_getElem? hg, rfl, hcall⟩⟩

/-- No loss: a chain of calls is a path of positions. -/
theorem CallsListed.reaches_position (hnext : p.CallsListed next) (hnames : p.names.Nodup)
    (hroot : p.position? entry = some root) {f : String} (h : p.Reaches entry f) {i : Nat}
    (hi : p.position? f = some i) : BitSet.Reaches next [root] i := by
  induction h generalizing i with
  | refl =>
    cases hroot.symm.trans hi
    exact ⟨root, List.mem_singleton_self root, .refl⟩
  | tail _ hcall ih =>
    -- the caller is in the program, at the one position of its name
    obtain ⟨g, hg, rfl, hcall⟩ := hcall
    obtain ⟨k, hk⟩ := List.mem_iff_getElem?.mp hg
    obtain ⟨r, hr, hpath⟩ := ih (position?_of_getElem? hnames hk)
    exact ⟨r, hr, hpath.tail ((hnext k i).mpr ⟨g, _, hk, hcall, hi⟩)⟩

end Search

/-- The names found are those of the functions that the entry point reaches. -/
theorem reachableFrom_of_walk {p : Program} {entry : String} (hnames : p.names.Nodup)
    (hwalk : ∀ g ∈ p.functions, ∃ w, Walk.run g = .ok w) (hentry : entry ∈ p.names) :
    ∃ reached, p.reachableFrom entry = .ok (some reached) ∧
      ∀ f, f ∈ reached ↔ f ∈ p.names ∧ p.Reaches entry f := by
  obtain ⟨rows, hrows, hnext⟩ := exists_calls hwalk
  obtain ⟨root, hroot⟩ : ∃ root, p.position? entry = some root :=
    Option.ne_none_iff_exists'.mp fun h => position?_eq_none.mp h hentry
  obtain ⟨found, hfound⟩ :
      ∃ found, BitSet.closure p.length (fun i => rows[i]?.getD []) [root] = .ok found := by
    refine BitSet.exists_closure (by simpa using lt_length_of_position? hroot) fun i j hj => ?_
    obtain ⟨g, f, -, -, hf⟩ := (hnext i j).mp hj
    exact lt_length_of_position? hf
  refine ⟨ascending (found.toList.filterMap fun i => p.functions[i]?.map Graph.name), ?_,
    fun f => ?_⟩
  · unfold reachableFrom
    rw [hroot]
    exact (bind_of_ok hrows).trans (bind_of_ok hfound)
  · simp only [mem_ascending, List.mem_filterMap, BitSet.mem_toList, BitSet.contains_closure hfound,
      Option.map_eq_some_iff]
    constructor
    · rintro ⟨i, hi, g, hg, rfl⟩
      obtain ⟨g', hg', hreach⟩ := hnext.reaches_name hroot hi
      cases hg.symm.trans hg'
      exact ⟨List.mem_map_of_mem (List.mem_of_getElem? hg), hreach⟩
    · rintro ⟨hf, hreach⟩
      obtain ⟨g, hg, rfl⟩ := List.mem_map.mp hf
      obtain ⟨i, hi⟩ := List.mem_iff_getElem?.mp hg
      exact ⟨i, hnext.reaches_position hnames hroot hreach (position?_of_getElem? hnames hi),
        g, hi, rfl⟩

/-- Without an entry point nothing is searched. -/
theorem reachableFrom_of_not_mem {p : Program} {entry : String} (hentry : entry ∉ p.names) :
    p.reachableFrom entry = .ok none := by
  unfold reachableFrom
  rw [position?_eq_none.mpr hentry]

/-- If some function cannot be walked, the search fails as the walk of one of them does. -/
theorem reachableFrom_of_error {p : Program} {entry : String} (hentry : entry ∈ p.names)
    (herror : ∃ g ∈ p.functions, ∃ e, Walk.run g = .error e) :
    ∃ e, p.reachableFrom entry = .error e ∧ ∃ g ∈ p.functions, Walk.run g = .error e := by
  obtain ⟨root, hroot⟩ : ∃ root, p.position? entry = some root :=
    Option.ne_none_iff_exists'.mp fun h => position?_eq_none.mp h hentry
  have hcalls :
      Ends (fun e => ∃ g ∈ p.functions, Walk.run g = .error e) (fun _ => True) p.calls := by
    refine (Ends.mapM (R := fun _ => True) fun g hg => ?_).mono (fun _ h => h) fun _ _ => trivial
    cases hw : Walk.run g with
    | error e => exact .of_error (bind_of_error (Graph.callees_of_error hw)) ⟨g, hg, hw⟩
    | ok w =>
      obtain ⟨names, hnames, -⟩ := Graph.callees_of_walk hw
      exact .of_ok (bind_of_ok hnames) trivial
  cases hrows : p.calls with
  | error e =>
    refine ⟨e, ?_, hcalls.fails hrows⟩
    unfold reachableFrom
    rw [hroot]
    exact bind_of_error hrows
  | ok rows =>
    obtain ⟨g, hg, e, he⟩ := herror
    obtain ⟨row, hrow⟩ := exists_of_mapM hrows hg
    cases (bind_of_error (Graph.callees_of_error he)).symm.trans hrow

/-! ### What stays -/

open Classical in
/-- The functions that the entry point reaches, in order. -/
noncomputable def reached (p : Program) (entry : String) : List Graph :=
  p.functions.filter fun g => p.Reaches entry g.name

open Classical in
/-- The other functions, in order. -/
noncomputable def unreached (p : Program) (entry : String) : List Graph :=
  p.functions.filter fun g => ¬ p.Reaches entry g.name

theorem mem_reached {p : Program} {entry : String} {g : Graph} :
    g ∈ p.reached entry ↔ g ∈ p.functions ∧ p.Reaches entry g.name := by
  simp [reached]

/-- Chains of calls stay within what is reached. -/
theorem Reaches.restrict {p : Program} {entry f : String} (h : p.Reaches entry f) :
    Reaches { functions := p.reached entry } entry f := by
  induction h with
  | refl => exact .refl
  | tail hpath hcall ih =>
    obtain ⟨g, hg, rfl, hcall⟩ := hcall
    exact ih.tail ⟨g, mem_reached.mpr ⟨hg, hpath⟩, rfl, hcall⟩

theorem reached_restrict (p : Program) (entry : String) :
    reached { functions := p.reached entry } entry = p.reached entry := by
  refine List.filter_eq_self.mpr fun g hg => ?_
  simpa using (mem_reached.mp hg).2.restrict

theorem unreached_restrict (p : Program) (entry : String) :
    unreached { functions := p.reached entry } entry = [] := by
  refine List.filter_eq_nil_iff.mpr fun g hg => ?_
  simpa using (mem_reached.mp hg).2.restrict

end Program

namespace UnusedFunctions

open Program

/-- `t` is `s` after the removal of some functions was noted: with one event more for each, in their
order, and their names marked. -/
structure Noted (fs : List String) (s t : Session) : Prop where
  events : t.log.events.toList = s.log.events.toList ++
    fs.map fun f => { kind := .functionRemoved, function := f, pass := name }
  removed : ∀ f, f ∈ t.removed ↔ f ∈ s.removed ∨ f ∈ fs
  rest : t = { s with log := t.log, removed := t.removed }

theorem noted_foldl (fs : List String) (s : Session) : Noted fs s (fs.foldl noteRemoved s) := by
  induction fs generalizing s with
  | nil => exact ⟨by simp, by simp, rfl⟩
  | cons f fs ih =>
    have h := ih (noteRemoved s f)
    refine ⟨?_, fun f' => ?_, h.rest⟩
    · rw [List.foldl_cons, h.events]
      simp [noteRemoved, Session.markRemoved, EventLog.push]
    · rw [List.foldl_cons, h.removed]
      simp only [noteRemoved, Session.markRemoved, mem_insertAscending, List.mem_cons]
      tauto

/-- What is kept and noted is settled by the chains of calls. -/
theorem onProgram_of_walk {p : Program} {entry : String} (hnames : p.names.Nodup)
    (hwalk : ∀ g ∈ p.functions, ∃ w, Walk.run g = .ok w) (hentry : entry ∈ p.names) (s : Session) :
    onProgram entry p s = .ok (!(p.unreached entry).isEmpty, { functions := p.reached entry },
      ((p.unreached entry).map Graph.name).foldl noteRemoved s) := by
  obtain ⟨names, hreach, hmem⟩ := reachableFrom_of_walk hnames hwalk hentry
  have hiff : ∀ g ∈ p.functions, g.name ∈ names ↔ p.Reaches entry g.name := fun g hg =>
    (hmem g.name).trans (and_iff_right (List.mem_map_of_mem hg))
  have hkept : p.retain names.contains = { functions := p.reached entry } := by
    refine congrArg Program.mk (List.filter_congr fun g hg => ?_)
    simp [hiff g hg]
  have hremoved : (p.names.filter fun f => !names.contains f) =
      (p.unreached entry).map Graph.name := by
    rw [Program.names, List.filter_map]
    refine congrArg _ (List.filter_congr fun g hg => ?_)
    simp [hiff g hg]
  unfold onProgram
  rw [bind_of_ok hreach]
  simp only [hkept, hremoved, List.isEmpty_map]
  rfl

/-- A program that holds only what its entry point reaches is left alone. -/
theorem onProgram_restrict {p : Program} {entry : String} (hnames : p.names.Nodup)
    (hwalk : ∀ g ∈ p.functions, ∃ w, Walk.run g = .ok w) (hentry : entry ∈ p.names) (s : Session) :
    onProgram entry { functions := p.reached entry } s =
      .ok (false, { functions := p.reached entry }, s) := by
  have hsublist : (p.reached entry).Sublist p.functions := List.filter_sublist
  have hnames' : (Program.names { functions := p.reached entry }).Nodup :=
    hnames.sublist (hsublist.map Graph.name)
  have hentry' : entry ∈ Program.names { functions := p.reached entry } := by
    obtain ⟨g, hg, rfl⟩ := List.mem_map.mp hentry
    exact List.mem_map_of_mem (mem_reached.mpr ⟨hg, .refl⟩)
  rw [onProgram_of_walk hnames' (fun g hg => hwalk g (hsublist.subset hg)) hentry',
    reached_restrict, unreached_restrict]
  rfl

theorem onProgram_of_not_mem {p : Program} {entry : String} (hentry : entry ∉ p.names)
    (s : Session) : onProgram entry p s = .ok (false, p, { s with
      log := s.log.say .warning
        ("entry point '" ++ entry ++ "' not found, keeping all functions") }) :=
  bind_of_ok (reachableFrom_of_not_mem hentry)

theorem onProgram_of_error {p : Program} {entry : String} (hentry : entry ∈ p.names)
    (herror : ∃ g ∈ p.functions, ∃ e, Walk.run g = .error e) (s : Session) :
    ∃ e, onProgram entry p s = .error e ∧ ∃ g ∈ p.functions, Walk.run g = .error e := by
  obtain ⟨e, he, hwalk⟩ := reachableFrom_of_error hentry herror
  exact ⟨e, bind_of_error he, hwalk⟩

/-- What the pass leaves behind when it runs alone. -/
theorem runGlobal_fst {p : Program} {entry : String} {s : Session}
    (h : ∀ changed q t, onProgram entry p s = .ok (changed, q, t) → q = p) :
    (Pipeline.runGlobal [pass entry] p s).1 = p := by
  simp only [Pipeline.runGlobal, pass, if_true]
  split
  next => rfl
  next changed q t hrun => exact h changed q t hrun

/-- In a program whose functions have different names and can all be walked, and which has the entry
point, exactly the functions that it reaches stay, as they were and in their order. The removal of
each of the others is noted once, in their order, and the answer is whether there are any; a second
run changes nothing. Without the entry point, or if some function cannot be walked, the program is
left as it is. -/
theorem onProgram_exact (entry : String) (p : Program) (s : Session) :
    (p.names.Nodup → (∀ g ∈ p.functions, ∃ w, Walk.run g = .ok w) → entry ∈ p.names →
      ∃ changed t, onProgram entry p s = .ok (changed, { functions := p.reached entry }, t) ∧
        (changed = true ↔ p.unreached entry ≠ []) ∧
        Noted ((p.unreached entry).map Graph.name) s t ∧
        ∀ u, onProgram entry { functions := p.reached entry } u =
          .ok (false, { functions := p.reached entry }, u)) ∧
    (entry ∉ p.names → onProgram entry p s = .ok (false, p, { s with
      log := s.log.say .warning
        ("entry point '" ++ entry ++ "' not found, keeping all functions") })) ∧
    ((∃ g ∈ p.functions, ∃ e, Walk.run g = .error e) → entry ∈ p.names →
      ∃ e, onProgram entry p s = .error e ∧ ∃ g ∈ p.functions, Walk.run g = .error e) ∧
    (entry ∉ p.names ∨ (∃ g ∈ p.functions, ∃ e, Walk.run g = .error e) →
      (Pipeline.runGlobal [pass entry] p s).1 = p) := by
  refine ⟨fun hnames hwalk hentry => ⟨_, _, onProgram_of_walk hnames hwalk hentry s, by simp,
      noted_foldl _ s, onProgram_restrict hnames hwalk hentry⟩,
    fun hentry => onProgram_of_not_mem hentry s,
    fun herror hentry => onProgram_of_error hentry herror s,
    fun h => runGlobal_fst fun changed q t hrun => ?_⟩
  by_cases hentry : entry ∈ p.names
  · have herror := h.resolve_left fun hnot => hnot hentry
    obtain ⟨e, he, -⟩ := onProgram_of_error hentry herror s
    cases he.symm.trans hrun
  · cases (onProgram_of_not_mem hentry s).symm.trans hrun
    rfl

/-- A function that calls some names one after the other, and has calls that nothing depends on. -/
def caller (name : String) (calls unused : List String) : Except Error Graph :=
  Prod.snd <$> StateT.run (do
    let memory ← Builder.memory
    for f in unused do
      let _ ← Builder.call Anchor.startBlock memory f [] none
    let memory ← calls.foldlM (fun memory f =>
      return (← Builder.call Anchor.startBlock memory f [] none).1) memory
    let _ ← Builder.ret Anchor.startBlock memory []) (Graph.new name 0)

/-- Two functions that call each other, one that calls itself, and a name that is not defined. Only
the first two are reached. -/
def callers : Except Error (List Graph) := do
  return [← caller "orphan" ["even", "orphan"] [], ← caller "even" ["odd"] [],
    ← caller "main" ["even", "print"] ["orphan"], ← caller "odd" ["even", "main"] []]

/-- A negation of itself that is kept alive. -/
def tangle : Except Error Graph :=
  [Edit.addNode .not .bool (some Anchor.startBlock) [Anchor.bad],
    .setOperand 5 0 5, .keepAlive 5].foldlM Graph.apply (.new "tangle" 0)

theorem onProgram_exact_callers :
    (∃ fs changed t, callers = .ok fs ∧ (fs.map Graph.name).Nodup ∧
      onProgram "main" ⟨fs⟩ {} = .ok (changed, { functions := reached ⟨fs⟩ "main" }, t) ∧
      (reached ⟨fs⟩ "main").map Graph.name = ["even", "main", "odd"] ∧
      (changed = true ↔ unreached ⟨fs⟩ "main" ≠ []) ∧ changed = true ∧
      Noted ((unreached ⟨fs⟩ "main").map Graph.name) {} t ∧ t.removed = ["orphan"] ∧
      onProgram "main" { functions := reached ⟨fs⟩ "main" } t =
        .ok (false, { functions := reached ⟨fs⟩ "main" }, t) ∧
      (Pipeline.runGlobal [pass "start"] ⟨fs⟩ t).1 = ⟨fs⟩) ∧
    ∃ g, tangle = .ok g ∧ (Pipeline.runGlobal [pass "tangle"] ⟨[g]⟩ {}).1 = ⟨[g]⟩ := by
  constructor
  · have hok : (do
        let fs ← callers
        let r ← onProgram "main" ⟨fs⟩ {}
        return (fs.map Graph.name, fs.all fun g => (Walk.run g).isOk, r.1, r.2.1.names,
          r.2.2.removed)) =
        .ok (["orphan", "even", "main", "odd"], true, true, ["even", "main", "odd"],
          ["orphan"]) := by
      decide +kernel
    obtain ⟨fs, hfs, hok⟩ := bind_eq_ok.mp hok
    obtain ⟨⟨changed, q, t⟩, hrun, hok⟩ := bind_eq_ok.mp hok
    simp only [pure, Except.pure, Except.ok.injEq, Prod.mk.injEq] at hok
    obtain ⟨hnames, hwalk, rfl, hkept, hremoved⟩ := hok
    have hnodup : (fs.map Graph.name).Nodup := by simp [hnames]
    have hmain : "main" ∈ fs.map Graph.name := by simp [hnames]
    have hstart : "start" ∉ fs.map Graph.name := by simp [hnames]
    have hwalk : ∀ g ∈ fs, ∃ w, Walk.run g = .ok w := fun g hg =>
      exists_of_isOk (List.all_eq_true.mp hwalk g hg)
    obtain ⟨changed, t', hrun', hchanged, hnoted, htwice⟩ :=
      (onProgram_exact "main" ⟨fs⟩ {}).1 hnodup hwalk hmain
    cases hrun'.symm.trans hrun
    exact ⟨fs, true, t, hfs, hnodup, hrun, hkept, hchanged, rfl, hnoted, hremoved, htwice t,
      (onProgram_exact "start" ⟨fs⟩ t).2.2.2 (.inl hstart)⟩
  · have hok : (do
        let g ← tangle
        return (Walk.run g).isOk) = .ok false := by decide +kernel
    obtain ⟨g, hg, hok⟩ := bind_eq_ok.mp hok
    obtain ⟨e, he⟩ := exists_of_not_isOk (Except.ok.inj hok)
    exact ⟨g, hg, (onProgram_exact "tangle" ⟨[g]⟩ {}).2.2.2
      (.inr ⟨g, List.mem_singleton_self g, e, he⟩)⟩

end UnusedFunctions

end SeaOfNodes
