import AhungryJanet.Janet.Value
import AhungryJanet.Library.Interleaving
import AhungryJanet.Library.SavedSlot

/-!
# Waiting for a key

`com_ahungry_io.c`: `wait-for-key` saves the attributes of the terminal in `world.orig_termios`,
switches to raw mode, reads until there is a byte, and restores what was saved. Any number of
threads do so any number of times, and there is one `world` for all of them.

`tcgetattr` and `tcsetattr` succeed, and are one step each. What the calls of `read` return is given
as a list, for all threads together.

## Main results

* `tracks_of_reaches` — in every reachable state, the attributes and `world` are those of a saved
  slot
* `tty_eq_iff` — the runs in which the terminal is given back
* `cleanSaves_of_subsingleton` — a single thread is in one of them
-/

namespace AhungryJanet

open Interleaving SavedSlot

/-! ### Attributes -/

/-- `struct termios` of Linux. -/
structure Termios where
  cIflag : UInt32
  cOflag : UInt32
  cCflag : UInt32
  cLflag : UInt32
  cLine : UInt8
  cCc : Vector UInt8 32
  cIspeed : UInt32
  cOspeed : UInt32
  deriving DecidableEq

/-- `BRKINT | ICRNL | INPCK | ISTRIP | IXON`. -/
def rawIflag : UInt32 := 0o2 ||| 0o400 ||| 0o20 ||| 0o40 ||| 0o2000

/-- `CS8`. -/
def cs8 : UInt32 := 0o60

/-- `ECHO | ICANON | IEXTEN`. -/
def rawLflag : UInt32 := 0o10 ||| 0o2 ||| 0o100000

/-- `raw` in `enable_raw_mode`, with `VMIN` 6 and `VTIME` 5. -/
def Termios.raw (orig : Termios) : Termios :=
  { orig with
    cIflag := orig.cIflag &&& ~~~rawIflag
    cCflag := orig.cCflag ||| cs8
    cLflag := orig.cLflag &&& ~~~rawLflag
    cCc := (orig.cCc.set 6 0).set 5 1 }

/-- Raw mode is not made any rawer. -/
theorem Termios.raw_raw (orig : Termios) : orig.raw.raw = orig.raw := by
  have hcc : ∀ cc : Vector UInt8 32,
      ((((cc.set 6 0).set 5 1).set 6 0).set 5 1) = (cc.set 6 0).set 5 1 := by
    intro cc
    rw [Vector.set_comm 1 0 (by decide), Vector.set_set, Vector.set_set]
  simp only [raw, UInt32.and_assoc, UInt32.and_self, UInt32.or_assoc, UInt32.or_self, hcc]

/-! ### The calls -/

/-- The locations of `wait_for_key_wrapped` and the two functions it calls. What `atexit` registers
is not run before the end of the process. -/
inductive WaitForKeyAt where
  | tcgetattr
  | raw
  | tcsetattr (raw : Termios)
  | read
  | disableRawMode (c : UInt8)

/-- A thread: how many calls it is going to make, where it is in one, and what the others have
returned, each a `char`, which is signed. -/
structure KeyThread where
  calls : ℕ
  pc : Option WaitForKeyAt
  keys : List ℤ

/-- What the threads share: the attributes in force, `world`, and what the next calls of `read` will
return, `none` for no byte. Nothing looks at the `log`. -/
structure Terminal where
  tty : Termios
  origTermios : Termios
  reads : List (Option UInt8)
  log : List SlotEvent

/-- A step of a thread. -/
def waitForKeyStep (t : KeyThread) (sh : Terminal) : Option (KeyThread × Terminal) :=
  match t.pc with
  | none =>
    match t.calls with
    | 0 => none
    | calls + 1 => some ({ t with calls := calls, pc := some .tcgetattr }, sh)
  | some .tcgetattr =>
    some ({ t with pc := some .raw },
      { sh with origTermios := sh.tty, log := sh.log ++ [.save] })
  | some .raw => some ({ t with pc := some (.tcsetattr sh.origTermios.raw) }, sh)
  | some (.tcsetattr raw) =>
    some ({ t with pc := some .read }, { sh with tty := raw, log := sh.log ++ [.change] })
  | some .read =>
    match sh.reads with
    | [] => none
    | none :: reads => some (t, { sh with reads := reads })
    | some c :: reads =>
      some ({ t with pc := some (.disableRawMode c) }, { sh with reads := reads })
  | some (.disableRawMode c) =>
    some ({ t with pc := none, keys := t.keys ++ [c.toInt8.toInt] },
      { sh with tty := sh.origTermios, log := sh.log ++ [.restore] })

/-- The threads and the terminal. -/
abbrev KeyState (ι : Type) := State ι KeyThread Terminal

/-- The state before any call. -/
def KeyState.initial {ι : Type} (calls : ι → ℕ) (tty origTermios : Termios)
    (reads : List (Option UInt8)) : KeyState ι where
  threads i := ⟨calls i, none, []⟩
  shared := ⟨tty, origTermios, reads, []⟩

/-! ### One step -/

/-- The thread has switched to raw mode, and has yet to restore. -/
def KeyThread.InRaw (t : KeyThread) : Prop :=
  t.pc = some .read ∨ ∃ c, t.pc = some (.disableRawMode c)

/-- What a thread knows: that something was saved, and, before it switches, that it switches to
`raw`. -/
structure KeyThread.Knows (raw : Termios) (log : List SlotEvent) (t : KeyThread) : Prop where
  saved : t.pc ≠ none → t.pc ≠ some .tcgetattr → log ≠ []
  raw_eq : ∀ raw', t.pc = some (.tcsetattr raw') → raw' = raw

theorem KeyThread.Knows.append {raw : Termios} {log : List SlotEvent} {t : KeyThread}
    (h : t.Knows raw log) (log' : List SlotEvent) : t.Knows raw (log ++ log') :=
  ⟨fun hnone hget => List.append_ne_nil_of_left_ne_nil (h.saved hnone hget) log', h.raw_eq⟩

/-- What a step does: an event or none, the first of all events being a save, and none of the saves
being made in raw mode. A change is pending behind it only if the thread is in raw mode, or if it
was pending before and the thread has not left raw mode. -/
structure KeepsTrack (raw : Termios) (t : KeyThread) (sh : Terminal) (t' : KeyThread)
    (sh' : Terminal) : Prop where
  event : ∃ e : Option SlotEvent, sh'.log = sh.log ++ e.toList ∧
    (sh'.tty, sh'.origTermios) = run raw (sh.tty, sh.origTermios) e.toList ∧
    (sh.log = [] → e = none ∨ e = some .save) ∧ (e = some .save → ¬ t.InRaw)
  knows : t'.Knows raw sh'.log
  pending : Pending sh'.log → t'.InRaw ∨ Pending sh.log ∧ (t.InRaw → t'.InRaw)

/-- A step without an event. -/
theorem KeepsTrack.quiet {raw : Termios} {t t' : KeyThread} {sh : Terminal}
    (reads : List (Option UInt8)) (hknows : t'.Knows raw sh.log) (hraw : t.InRaw → t'.InRaw) :
    KeepsTrack raw t sh t' { sh with reads := reads } :=
  ⟨⟨none, (List.append_nil _).symm, rfl, fun _ => .inl rfl, fun h => by cases h⟩, hknows,
    fun h => .inr ⟨h, hraw⟩⟩

theorem keepsTrack {raw : Termios} {t t' : KeyThread} {sh sh' : Terminal}
    (h : waitForKeyStep t sh = some (t', sh')) (hknows : t.Knows raw sh.log)
    (horig : sh.log ≠ [] → sh.origTermios.raw = raw) : KeepsTrack raw t sh t' sh' := by
  obtain ⟨calls, pc, keys⟩ := t
  have hsaved : ∀ {loc}, pc = some loc → loc ≠ .tcgetattr → sh.log ≠ [] := by
    rintro loc rfl hloc
    exact hknows.saved (by simp) (by simpa using hloc)
  unfold waitForKeyStep at h
  match pc with
  | none =>
    match calls with
    | 0 => cases h
    | calls + 1 =>
      cases h
      exact .quiet sh.reads ⟨by simp, by simp⟩ (by simp [KeyThread.InRaw])
  | some .tcgetattr =>
    cases h
    have hnot : ¬ (⟨calls, some .tcgetattr, keys⟩ : KeyThread).InRaw := by simp [KeyThread.InRaw]
    exact ⟨⟨some .save, rfl, rfl, fun _ => .inr rfl, fun _ => hnot⟩, ⟨by simp, by simp⟩,
      fun hpending => .inr ⟨(pending_concat_save _).mp hpending, fun hraw => absurd hraw hnot⟩⟩
  | some .raw =>
    cases h
    have hlog := hsaved rfl (by simp)
    exact .quiet sh.reads ⟨fun _ _ => hlog, by simp [horig hlog]⟩ (by simp [KeyThread.InRaw])
  | some (.tcsetattr raw') =>
    cases h
    have hlog := hsaved rfl (by simp)
    refine ⟨⟨some .change, rfl, ?_, fun hnil => absurd hnil hlog, fun h => by cases h⟩,
      ⟨by simp, by simp⟩, fun _ => .inl (.inl rfl)⟩
    rw [hknows.raw_eq raw' rfl]
    rfl
  | some .read =>
    have hlog := hsaved rfl (by simp)
    dsimp only at h
    split at h
    case h_1 => cases h
    case h_2 =>
      cases h
      exact .quiet _ ⟨fun _ _ => hlog, by simp⟩ id
    case h_3 c reads _ =>
      cases h
      exact .quiet _ ⟨fun _ _ => hlog, by simp⟩ fun _ => .inr ⟨c, rfl⟩
  | some (.disableRawMode c) =>
    cases h
    have hlog := hsaved rfl (by simp)
    exact ⟨⟨some .restore, rfl, rfl, fun hnil => absurd hnil hlog, fun h => by cases h⟩,
      ⟨by simp, by simp⟩, fun hpending => absurd hpending (not_pending_concat_restore _)⟩

/-! ### Runs -/

/-- The attributes in force and those in `world` are those of a saved slot, and under a pending
change some thread is in raw mode. -/
structure Tracks {ι : Type} (tty orig : Termios) (s : KeyState ι) : Prop where
  slot : (s.shared.tty, s.shared.origTermios) = run tty.raw (tty, orig) s.shared.log
  begins : s.shared.log = [] ∨ ∃ rest, s.shared.log = .save :: rest
  knows : ∀ i, (s.threads i).Knows tty.raw s.shared.log
  pending : Pending s.shared.log → ∃ i, (s.threads i).InRaw

section

variable {ι : Type} {tty orig : Termios} {s : KeyState ι}

/-- The raw attributes of what was saved are those of the first attributes. -/
theorem Tracks.raw_origTermios (h : Tracks tty orig s) (hlog : s.shared.log ≠ []) :
    s.shared.origTermios.raw = tty.raw := by
  obtain ⟨rest, hrest⟩ := h.begins.resolve_left hlog
  have horig : s.shared.origTermios = (run tty.raw (tty, orig) (.save :: rest)).2 := by
    rw [← hrest, ← h.slot]
  rw [horig]
  rcases snd_run_eq tty tty.raw orig rest with heq | heq
  · rw [heq]
  · rw [heq, Termios.raw_raw]

theorem tracks_initial (calls : ι → ℕ) (reads : List (Option UInt8)) :
    Tracks tty orig (KeyState.initial calls tty orig reads) :=
  ⟨rfl, .inl rfl, fun _ => ⟨fun h => absurd rfl h, fun _ h => by cases h⟩, fun h => by cases h⟩

variable [DecidableEq ι]

theorem Tracks.set (h : Tracks tty orig s) (i : ι) {t : KeyThread} {sh : Terminal}
    (hstep : waitForKeyStep (s.threads i) s.shared = some (t, sh)) :
    Tracks tty orig (s.set i t sh) := by
  obtain ⟨⟨e, hlog, hslot, hfirst, -⟩, hknows, hpending⟩ :=
    keepsTrack hstep (h.knows i) h.raw_origTermios
  refine ⟨?_, ?_, fun j => ?_, fun hp => ?_⟩
  · rw [State.set_shared, hslot, hlog, run_append, ← h.slot]
  · rw [State.set_shared, hlog]
    rcases h.begins with hnil | ⟨rest, hrest⟩
    · rw [hnil, List.nil_append]
      rcases hfirst hnil with rfl | rfl
      · exact .inl rfl
      · exact .inr ⟨[], rfl⟩
    · exact .inr ⟨rest ++ e.toList, by rw [hrest, List.cons_append]⟩
  · rw [State.set_shared]
    by_cases hj : j = i
    · rw [hj, State.set_threads_self]
      exact hknows
    · rw [State.set_threads_of_ne s hj, hlog]
      exact (h.knows j).append e.toList
  · rw [State.set_shared] at hp
    rcases hpending hp with hraw | ⟨hbefore, hkept⟩
    · exact ⟨i, by rwa [State.set_threads_self]⟩
    · obtain ⟨j, hj⟩ := h.pending hbefore
      refine ⟨j, ?_⟩
      by_cases hji : j = i
      · rw [hji] at hj ⊢
        rw [State.set_threads_self]
        exact hkept hj
      · rwa [State.set_threads_of_ne s hji]

theorem tracks_of_reaches {calls : ι → ℕ} {reads : List (Option UInt8)}
    (hrun : Reaches waitForKeyStep (KeyState.initial calls tty orig reads) s) :
    Tracks tty orig s := by
  refine Reaches.invariant (P := Tracks tty orig) ?_ hrun (tracks_initial calls reads)
  rintro r r' hr ⟨i, hi⟩
  exact hr.set i hi

/-- **When every call has returned, the terminal is given back if and only if no call has saved
between the switch of another one to raw mode and the next restoration**, or the terminal was in
raw mode from the beginning. -/
theorem tty_eq_iff {calls : ι → ℕ} {reads : List (Option UInt8)}
    (hrun : Reaches waitForKeyStep (KeyState.initial calls tty orig reads) s)
    (hreturned : ∀ i, (s.threads i).pc = none) :
    s.shared.tty = tty ↔ tty.raw = tty ∨ CleanSaves s.shared.log := by
  have htracks := tracks_of_reaches hrun
  have hidle : ¬ Pending s.shared.log := by
    intro hpending
    obtain ⟨i, hraw⟩ := htracks.pending hpending
    simp [KeyThread.InRaw, hreturned i] at hraw
  have htty : s.shared.tty = (run tty.raw (tty, orig) s.shared.log).1 := by rw [← htracks.slot]
  rw [htty]
  exact fst_run_eq_iff tty tty.raw orig htracks.begins hidle

omit [DecidableEq ι] in
/-- A thread that finds no other one in raw mode makes a clean save. -/
theorem Tracks.cleanSaves_set (h : Tracks tty orig s) (hclean : CleanSaves s.shared.log) (i : ι)
    {t : KeyThread} {sh : Terminal}
    (hstep : waitForKeyStep (s.threads i) s.shared = some (t, sh))
    (halone : ∀ j, (s.threads j).InRaw → j = i) : CleanSaves sh.log := by
  obtain ⟨⟨e, hlog, -, -, hsave⟩, -, -⟩ := keepsTrack hstep (h.knows i) h.raw_origTermios
  rw [hlog]
  cases e with
  | none =>
    rw [Option.toList_none, List.append_nil]
    exact hclean
  | some e =>
    refine cleanSaves_concat.mpr ⟨hclean, ?_⟩
    rintro rfl hpending
    obtain ⟨j, hj⟩ := h.pending hpending
    rw [halone j hj] at hj
    exact hsave rfl hj

/-- A thread by itself does. -/
theorem cleanSaves_of_subsingleton [Subsingleton ι] {calls : ι → ℕ} {reads : List (Option UInt8)}
    (hrun : Reaches waitForKeyStep (KeyState.initial calls tty orig reads) s) :
    CleanSaves s.shared.log := by
  refine (Reaches.invariant (P := fun r => Tracks tty orig r ∧ CleanSaves r.shared.log) ?_ hrun
    ⟨tracks_initial calls reads, cleanSaves_nil⟩).2
  rintro r r' ⟨hr, hclean⟩ ⟨i, hi⟩
  exact ⟨hr.set i hi, hr.cleanSaves_set hclean i hi fun j _ => Subsingleton.elim j i⟩

end

/-! ### One thread and two -/

/-- A terminal with echo and line editing. -/
def cooked : Termios where
  cIflag := 0o2400
  cOflag := 0o5
  cCflag := 0o277
  cLflag := 0o105073
  cLine := 0
  cCc := Vector.replicate 32 0
  cIspeed := 0o15
  cOspeed := 0o15

theorem raw_cooked_ne : cooked.raw ≠ cooked := by
  intro h
  exact absurd (congrArg Termios.cLflag h) (by decide)

/-- A call by itself, which waits once and reads `q`. -/
theorem tty_eq_alone :
    ∃ s : KeyState Unit, Reaches waitForKeyStep
        (KeyState.initial (fun _ => 1) cooked cooked [none, some 113]) s ∧
      (s.threads ()).keys = [113] ∧ s.shared.tty = cooked := by
  have hexec : exec waitForKeyStep (List.replicate 7 ())
      (KeyState.initial (fun _ => 1) cooked cooked [none, some 113]) = some _ := rfl
  have hrun := reaches_of_exec hexec
  exact ⟨_, hrun, rfl, (tty_eq_iff hrun fun _ => rfl).mpr (.inr (cleanSaves_of_subsingleton hrun))⟩

/-- Two calls, the second of which saves when the first is in raw mode. Both have returned, and
there is no echo. -/
theorem not_tty_eq_overlap :
    ¬ ∀ (calls : Bool → ℕ) (tty orig : Termios) (reads : List (Option UInt8)) (s : KeyState Bool),
      Reaches waitForKeyStep (KeyState.initial calls tty orig reads) s →
      (∀ i, (s.threads i).pc = none) → s.shared.tty = tty := by
  intro h
  have hexec : exec waitForKeyStep
      [false, false, false, false, true, true, true, true, false, false, true, true]
      (KeyState.initial (fun _ => 1) cooked cooked [some 113, some 113]) = some _ := rfl
  have htty := h _ _ _ _ _ (reaches_of_exec hexec) (by intro i; cases i <;> rfl)
  exact raw_cooked_ne htty

end AhungryJanet
