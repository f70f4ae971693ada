import AhungryJanet.Util.Lazy

/-!
# Reading a file lazily

`lazy-reader` of `com.ahungry.util`: a lazy sequence whose functions open, read and close a file.
Its elements are records with what was read last and how much has been read so far.

The end of the file is found by a read that returns nothing: then the count has not changed, and it
has reached the size of the file. Whether a read comes after that depends on the generator alone, so
everything is said of what the generator yields, and `:map` and `:take-all` follow.

## Main results

* `yields_behind` — what is yielded behind a record, and how the file is left
* `readsWhole` — a full traversal delivers the file, and closes it once
-/

namespace AhungryJanet

open Loop

/-- A handle that `file/open` made. -/
structure Handle where
  position : ℕ
  closed : Bool

/-- A call on a handle. -/
inductive FileCall where
  | opened (fh : ℕ)
  | read (fh : ℕ)
  | closed (fh : ℕ)

/-- A file that does not change, the handles that were made for it, and the calls on them, which no
function looks at. -/
structure Files where
  content : Bytes
  handles : List Handle
  calls : List FileCall

/-- `(file/open filename :r)`. -/
def fileOpen (w : Files) : ℕ × Files :=
  (w.handles.length, { w with
    handles := w.handles ++ [⟨0, false⟩]
    calls := w.calls ++ [.opened w.handles.length] })

/-- The loop of `cfun_io_fread` for `:line`: up to and including the next newline. -/
def readLine : Bytes → Bytes
  | [] => []
  | x :: rest => if x = 10 then [x] else x :: readLine rest

/-- `(file/read fh :line)`. -/
def fileRead (fh : ℕ) (w : Files) : Call (Option Bytes × Files) :=
  match w.handles[fh]? with
  | none => .error (.badSlot 0)
  | some h =>
    if h.closed then .error .fileClosed
    else
      let line := readLine (w.content.drop h.position)
      .ok (if line = [] then none else some line, { w with
        handles := w.handles.set fh { h with position := h.position + line.length }
        calls := w.calls ++ [.read fh] })

/-- `(file/close fh)`. -/
def fileClose (fh : ℕ) (w : Files) : Call Files :=
  match w.handles[fh]? with
  | none => .error (.badSlot 0)
  | some h => .ok { w with
      handles := w.handles.set fh { h with closed := true }
      calls := w.calls ++ [.closed fh] }

/-- An element. At the end of the file `:s` is nil. -/
structure Record where
  lastBytes : ℕ
  bytes : ℕ
  s : Option Bytes
  fh : ℕ

/-- `lazy-reader`. -/
def lazyReader : Generator (Option Record) Files Panic where
  init w :=
    let opened := fileOpen w
    .ok (some { lastBytes := 0, bytes := 0, s := some [], fh := opened.1 }, opened.2)
  next v w :=
    match v with
    | none => .error (.badSlot 0)
    | some r => do
      let read ← fileRead r.fh w
      return (some {
        lastBytes := r.bytes
        bytes := r.bytes + (read.1.getD []).length
        s := read.1
        fh := r.fh }, read.2)
  stop v w :=
    match v with
    | none => .error (.badSlot 0)
    | some r =>
      if r.bytes ≥ w.content.length ∧ r.lastBytes = r.bytes then do
        return (true, ← fileClose r.fh w)
      else .ok (false, w)

/-! ### What is delivered -/

/-- The `:s` fields one after another. -/
def recordedText (rs : List Record) : Bytes := (rs.map fun r => r.s.getD []).flatten

/-- Behind `start` bytes, each record has in `:bytes` the length of the `:s` fields up to it. -/
def Counted (start : ℕ) (rs : List Record) : Prop :=
  ∀ before r, before ++ [r] <+: rs → r.bytes = start + (recordedText (before ++ [r])).length

theorem counted_nil (start : ℕ) : Counted start [] := by
  intro before r h
  simp at h

theorem Counted.cons {start : ℕ} {r : Record} {rs : List Record}
    (hr : r.bytes = start + (r.s.getD []).length) (hrs : Counted r.bytes rs) :
    Counted start (r :: rs) := by
  intro before r' h
  cases before with
  | nil =>
    obtain ⟨rfl, -⟩ := List.cons_prefix_cons.mp h
    simpa [recordedText] using hr
  | cons b before =>
    obtain ⟨rfl, hbehind⟩ := List.cons_prefix_cons.mp h
    have hcount := hrs before r' hbehind
    rw [recordedText] at hcount
    simp only [recordedText, List.cons_append, List.map_cons, List.flatten_cons,
      List.length_append]
    omega

/-! ### Lines -/

theorem readLine_isPrefix (b : Bytes) : readLine b <+: b := by
  induction b with
  | nil => exact List.prefix_refl []
  | cons x rest ih =>
    rw [readLine]
    split
    case isTrue => exact ⟨rest, rfl⟩
    case isFalse => exact (List.prefix_cons_inj x).mpr ih

theorem readLine_eq_nil_iff {b : Bytes} : readLine b = [] ↔ b = [] := by
  cases b with
  | nil => simp [readLine]
  | cons x rest =>
    rw [readLine]
    split
    case isTrue => simp
    case isFalse => simp

/-! ### One handle -/

/-- The files while the handle made last is at `p`. -/
def reading (content : Bytes) (hs : List Handle) (p : ℕ) (calls : List FileCall) : Files :=
  ⟨content, hs ++ [⟨p, false⟩], calls⟩

/-- The files when it is closed. -/
def readToEnd (content : Bytes) (hs : List Handle) (calls : List FileCall) : Files :=
  ⟨content, hs ++ [⟨content.length, true⟩], calls ++ [.closed hs.length]⟩

theorem fileRead_reading (pre rest : Bytes) (hs : List Handle) (calls : List FileCall) :
    fileRead hs.length (reading (pre ++ rest) hs pre.length calls) =
      .ok (if readLine rest = [] then none else some (readLine rest),
        reading (pre ++ rest) hs (pre.length + (readLine rest).length)
          (calls ++ [.read hs.length])) := by
  simp [fileRead, reading]

theorem fileClose_reading (content : Bytes) (hs : List Handle) (calls : List FileCall) :
    fileClose hs.length (reading content hs content.length calls) =
      .ok (readToEnd content hs calls) := by
  simp [fileClose, reading, readToEnd]

/-- At the end of the file a record repeats the count of the one before. -/
theorem next_at_end (hs : List Handle) (pre : Bytes) (calls : List FileCall) (last : ℕ)
    (s : Option Bytes) :
    lazyReader.next (some ⟨last, pre.length, s, hs.length⟩) (reading pre hs pre.length calls) =
      .ok (some ⟨pre.length, pre.length, none, hs.length⟩,
        reading pre hs pre.length (calls ++ [.read hs.length])) := by
  have hread := fileRead_reading pre [] hs calls
  rw [List.append_nil] at hread
  simp only [lazyReader, hread, bind, Except.bind]
  rfl

/-- Before it a record has a line, and counts it. -/
theorem next_line (hs : List Handle) {pre line rest : Bytes} (calls : List FileCall) (last : ℕ)
    (s : Option Bytes) (hline : readLine (line ++ rest) = line) (hne : line ≠ []) :
    lazyReader.next (some ⟨last, pre.length, s, hs.length⟩)
        (reading (pre ++ (line ++ rest)) hs pre.length calls) =
      .ok (some ⟨pre.length, (pre ++ line).length, some line, hs.length⟩,
        reading ((pre ++ line) ++ rest) hs (pre ++ line).length (calls ++ [.read hs.length])) := by
  have hread := fileRead_reading pre (line ++ rest) hs calls
  rw [hline, if_neg hne] at hread
  simp only [lazyReader, hread, bind, Except.bind, List.append_assoc, List.length_append]
  rfl

/-- Then the file is closed. -/
theorem stop_at_end (content : Bytes) (hs : List Handle) (calls : List FileCall)
    (s : Option Bytes) :
    lazyReader.stop (some ⟨content.length, content.length, s, hs.length⟩)
        (reading content hs content.length calls) = .ok (true, readToEnd content hs calls) := by
  have hend : content.length ≥ content.length ∧ content.length = content.length :=
    ⟨le_rfl, rfl⟩
  refine (if_pos hend).trans ?_
  rw [fileClose_reading]
  rfl

/-- **What is yielded behind a record**: the rest of the file, and then the file is closed. -/
theorem yields_behind (hs : List Handle) (rest : Bytes) (k : ℕ) (pre : Bytes)
    (calls : List FileCall) (last : ℕ) (s : Option Bytes) :
    ∃ rs n, lazyReader.Yields (fun _ => true) k
        (lazyReader.next (some ⟨last, pre.length, s, hs.length⟩))
        (reading (pre ++ rest) hs pre.length calls) (rs.map some)
        (readToEnd (pre ++ rest) hs (calls ++ List.replicate n (.read hs.length))) ∧
      recordedText rs = rest ∧ Counted pre.length rs := by
  induction hlen : rest.length using Nat.strongRecOn generalizing rest k pre calls last s with
  | ind len ih =>
    by_cases hrest : rest = []
    · subst hrest
      rw [List.append_nil]
      exact ⟨[], 1, .last rfl (next_at_end hs pre calls last s) (stop_at_end pre hs _ none), rfl,
        counted_nil _⟩
    · obtain ⟨rest', hsplit⟩ := readLine_isPrefix rest
      have hne : readLine rest ≠ [] := mt readLine_eq_nil_iff.mp hrest
      have hpos := List.length_pos_iff.mpr hne
      generalize hline : readLine rest = line at hsplit hne hpos
      subst hsplit
      have hlt : rest'.length < len := by
        rw [List.length_append] at hlen
        omega
      obtain ⟨rs, n, hyields, htext, hcounted⟩ := ih rest'.length hlt rest' (k + 1) (pre ++ line)
        (calls ++ [.read hs.length]) pre.length (some line) rfl
      have hgo : ¬ ((pre ++ line).length ≥ (pre ++ line ++ rest').length ∧
          pre.length = (pre ++ line).length) := by
        rw [List.length_append]
        omega
      have hcalls : calls ++ [.read hs.length] ++ List.replicate n (.read hs.length) =
          calls ++ List.replicate (n + 1) (.read hs.length) := by
        rw [List.append_assoc, List.singleton_append, ← List.replicate_succ]
      refine ⟨⟨pre.length, (pre ++ line).length, some line, hs.length⟩ :: rs, n + 1,
        .round rfl (next_line hs calls last s hline hne) (if_neg hgo) ?_, ?_, ?_⟩
      · rw [hcalls, List.append_assoc pre line rest'] at hyields
        rw [List.append_assoc pre line rest']
        exact hyields
      · rw [← htext]
        rfl
      · exact .cons List.length_append hcounted

/-- The whole of what is yielded. The first record is the one before any line. -/
theorem yields_file (w : Files) :
    ∃ rs n, lazyReader.Yields (fun _ => true) 0 lazyReader.init w (rs.map some)
        (readToEnd w.content w.handles (w.calls ++
          .opened w.handles.length :: List.replicate n (.read w.handles.length))) ∧
      recordedText rs = w.content ∧ Counted 0 rs := by
  obtain ⟨content, hs, calls⟩ := w
  have hinit : lazyReader.init ⟨content, hs, calls⟩ = .ok (some ⟨0, 0, some [], hs.length⟩,
      reading content hs 0 (calls ++ [.opened hs.length])) := rfl
  by_cases hcontent : content = []
  · subst hcontent
    exact ⟨[], 0, .last rfl hinit (stop_at_end [] hs _ (some [])), rfl, counted_nil 0⟩
  · obtain ⟨rs, n, hyields, htext, hcounted⟩ :=
      yields_behind hs content 1 [] (calls ++ [.opened hs.length]) 0 (some [])
    have hgo : ¬ (0 ≥ content.length ∧ 0 = 0) := by simpa using hcontent
    rw [List.append_assoc, List.singleton_append] at hyields
    exact ⟨⟨0, 0, some [], hs.length⟩ :: rs, n, .round rfl hinit (if_neg hgo) hyields, htext,
      .cons rfl hcounted⟩

/-- A full traversal returns what it makes of the records; their texts are the file, in order, and
counted. One handle is made, read from, and closed once at the end. -/
structure ReadsWhole (initFn : Record) (self : Lazy Record) (w : Files) (rs : List Record) (n : ℕ)
    (t : Files) : Prop where
  takeAll : Lazy.Returns (self.takeAll lazyReader initFn w) (rs.map some) t
  map : ∀ {β : Type} (f : Option Record → β),
    Lazy.Returns (self.map lazyReader initFn f w) (rs.map fun r => f (some r)) t
  text : recordedText rs = w.content
  counted : Counted 0 rs
  calls : t.calls = w.calls ++ .opened w.handles.length ::
    (List.replicate n (.read w.handles.length) ++ [.closed w.handles.length])
  handles : t.handles = w.handles ++ [⟨w.content.length, true⟩]
  content : t.content = w.content

/-- **A full traversal terminates and delivers the file**, in whatever state the object is, and it
closes its handle once. -/
theorem readsWhole (initFn : Record) (self : Lazy Record) (w : Files) :
    ∃ rs n t, ReadsWhole initFn self w rs n t := by
  obtain ⟨rs, n, hyields, htext, hcounted⟩ := yields_file w
  refine ⟨rs, n, _, takeAll_of_yields initFn self hyields, fun f => ?_, htext, hcounted, ?_, rfl,
    rfl⟩
  · have hreturns := map_of_yields initFn self f hyields
    rwa [List.map_map] at hreturns
  · rw [readToEnd, List.append_assoc, List.cons_append]

end AhungryJanet
