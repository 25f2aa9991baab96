import Rollup.Proofs.Storage.Backend
import Mathlib.Data.List.Induction

/-!
# Appends — what is read back of a file whose writes may stop

A write that stops leaves the bytes it got through in the file, past what the log knows of
(`LogFile.stray`).  The next write goes behind them, and only a cut takes them away.  An append is
answered with the place where the log's knowledge ends: what is read from there is what is stray,
and then what was appended.

**Reading back** (`LogFile.appends_read_back`).  After any calls, an append that succeeds is read
back, until the content is cut below its end, as what was stray and its own bytes after it, as far
as its length goes.  Nothing is stray exactly if no call has torn the file since the last cut
(`LogFile.Mended`); only then is every append read back as it was written.  A file none of whose
writes stops answers all calls as the same bytes in memory do.  The one finds the end of a range by
an addition that saturates at 64 bits, the other by one that is checked, and they refuse the same
reads.
-/

namespace Rollup

open Rollup.Action

namespace Backend

/-! ### Calls -/

/-- A call with its arguments. -/
inductive Call where
  | append (data : Bytes)
  | read (offset len : Nat)
  | truncate (newSize : Nat)
  | flush
  | sync
  | size
deriving DecidableEq, Repr

/-- What is answered to a call that succeeds. -/
inductive Answer where
  | number (n : Nat)
  | bytes (data : Bytes)
  | done
deriving DecidableEq, Repr

variable {β : Type} [Backend β]

def perform : Call → Action β StorageError Answer
  | .append data => .number <$> append data
  | .read offset len => .bytes <$> read offset len
  | .truncate newSize => (fun _ => .done) <$> truncate newSize
  | .flush => (fun _ => .done) <$> flush
  | .sync => (fun _ => .done) <$> sync
  | .size => .number <$> size

def answer (b : β) (call : Call) : Except StorageError Answer := ((perform call).exec b).1

def after (b : β) (call : Call) : β := ((perform call).exec b).2

def afterAll (b : β) (calls : List Call) : β := calls.foldl after b

/-- The answers of calls made one after the other. -/
def answers (b : β) : List Call → List (Except StorageError Answer)
  | [] => []
  | call :: calls => answer b call :: answers (after b call) calls

theorem afterAll_concat (b : β) (calls : List Call) (call : Call) :
    afterAll b (calls ++ [call]) = after (afterAll b calls) call := by
  rw [afterAll, List.foldl_append]
  rfl

end Backend

open Backend

namespace LogFile

/-! ### What a call does -/

/-- A file that is opened with this content, and what becomes of the writes to come. -/
def opened (content : Bytes) (stops : List (Option Nat)) : LogFile :=
  { ofContent content with stops }

/-- What stands in the file past what the log knows of. -/
def stray (file : LogFile) : Bytes := file.content.drop file.size

/-- All that the log knows of stands in the file. -/
def Covered (file : LogFile) : Prop := file.size ≤ file.content.length

/-- What a call answers and leaves. -/
inductive Effect (file : LogFile) : Call → Except StorageError Answer → LogFile → Prop where
  | appended (data : Bytes) (stops : List (Option Nat)) : file.Effect (.append data)
      (.ok (.number file.size)) ⟨file.content ++ data, file.size + data.length, stops⟩
  | stopped (data : Bytes) (k : Nat) : file.Effect (.append data) (.error (.io .writeStopped))
      ⟨file.content ++ data.take k, file.size, file.stops.tail⟩
  | cut (newSize : Nat) (hle : newSize ≤ file.size) : file.Effect (.truncate newSize) (.ok .done)
      ⟨file.content.take newSize, newSize, file.stops⟩
  | kept (call : Call) (answer : Except StorageError Answer) (hadd : ∀ data, call ≠ .append data)
      (hcut : ∀ newSize, call = .truncate newSize → answer ≠ .ok .done) :
      file.Effect call answer file

theorem Effect.of_exec {file file' : LogFile} {call : Call} {a : Except StorageError Answer}
    (hexec : (perform call).exec file = (a, file')) (h : file.Effect call a file') :
    file.Effect call (answer file call) (after file call) := by
  rwa [answer, after, hexec]

theorem effect (file : LogFile) (call : Call) :
    file.Effect call (answer file call) (after file call) := by
  cases call with
  | append data =>
      by_cases hdata : data = []
      · have h := @Effect.appended file [] file.stops
        rw [List.append_nil] at h
        exact hdata ▸ .of_exec (exec_map_eq rfl Answer.number) h
      cases hnext : file.stops.head?.join with
      | none =>
          obtain ⟨stops, hexec, -⟩ := exec_append_of_next hnext data
          exact .of_exec (exec_map_eq hexec Answer.number) (.appended data stops)
      | some k =>
          have hexec := exec_append_of_stop hnext hdata
          exact .of_exec (exec_map_eq hexec Answer.number) (.stopped data k)
  | truncate newSize =>
      rcases Nat.lt_or_ge file.size newSize with hlt | hle
      · refine .of_exec (exec_map_eq (exec_truncate_of_lt hlt) fun _ => Answer.done) ?_
        exact .kept _ _ (by simp) fun _ _ hok => by cases hok
      · exact .of_exec (exec_map_eq (exec_truncate_of_le hle) fun _ => Answer.done)
          (.cut newSize hle)
  | read offset len =>
      rcases Nat.lt_or_ge file.size (offset + len) with hlt | hle
      · exact .of_exec (exec_map_eq (exec_read_of_lt hlt) Answer.bytes)
          (.kept _ _ (by simp) (by simp))
      · exact .of_exec (exec_map_eq (exec_read_of_le hle) Answer.bytes)
          (.kept _ _ (by simp) (by simp))
  | flush => exact .kept _ _ (by simp) (by simp)
  | sync => exact .kept _ _ (by simp) (by simp)
  | size => exact .kept _ _ (by simp) (by simp)

section

variable {file file' : LogFile} {call : Call} {a : Except StorageError Answer}

theorem Effect.covered (h : file.Effect call a file') (hc : file.Covered) : file'.Covered := by
  rw [Covered] at hc ⊢
  cases h with
  | appended data stops => rw [List.length_append]; exact Nat.add_le_add_right hc _
  | stopped data k => rw [List.length_append]; exact Nat.le_add_right_of_le hc
  | cut newSize hle => exact Nat.le_of_eq (List.length_take_of_le (Nat.le_trans hle hc)).symm
  | kept call answer hadd hcut => exact hc

/-- **A call keeps the first bytes** unless it cuts them off. -/
theorem Effect.keeps (h : file.Effect call a file') (hc : file.Covered) {e : Nat}
    (he : e ≤ file.size) (hcut : ∀ n, call = .truncate n → e ≤ n) :
    e ≤ file'.size ∧ file'.content.take e = file.content.take e := by
  have hin : e ≤ file.content.length := Nat.le_trans he hc
  cases h with
  | appended data stops => exact ⟨Nat.le_add_right_of_le he, List.take_append_of_le_length hin⟩
  | stopped data k => exact ⟨he, List.take_append_of_le_length hin⟩
  | cut newSize hle =>
      have hn : e ≤ newSize := hcut newSize rfl
      exact ⟨hn, by rw [List.take_take, Nat.min_eq_left hn]⟩
  | kept call answer hadd _ => exact ⟨he, rfl⟩

end

/-! ### Stray bytes -/

/-- The call fails, and yet the file is longer for it. -/
def Tears (file : LogFile) (call : Call) : Prop :=
  (∃ e, answer file call = .error e) ∧ file.content.length < (after file call).content.length

/-- The call cuts the file down to what the log knows of, and perhaps further. -/
def Cuts (file : LogFile) (call : Call) : Prop :=
  ∃ newSize, call = .truncate newSize ∧ answer file call = .ok .done

theorem stray_eq_nil_iff {file : LogFile} :
    file.stray = [] ↔ file.content.length ≤ file.size := List.drop_eq_nil_iff

/-- **Stray bytes** come from a call that tears, and go by a cut. -/
theorem stray_after_eq_nil_iff {file : LogFile} (hc : file.Covered) (call : Call) :
    (after file call).stray = [] ↔ file.Cuts call ∨ file.stray = [] ∧ ¬ file.Tears call := by
  rw [stray_eq_nil_iff, stray_eq_nil_iff, Cuts, Tears]
  have h := file.effect call
  generalize answer file call = a at h ⊢
  generalize after file call = file' at h ⊢
  rw [Covered] at hc
  cases h with
  | appended data stops =>
      rw [List.length_append, Nat.add_le_add_iff_right]
      refine ⟨fun h => .inr ⟨h, fun ⟨⟨e, he⟩, _⟩ => by cases he⟩, fun h => ?_⟩
      rcases h with ⟨n, hn, -⟩ | ⟨hle, -⟩
      · cases hn
      · exact hle
  | stopped data k =>
      rw [List.length_append]
      refine ⟨fun h => .inr ⟨Nat.le_of_add_right_le h, fun ⟨_, hlt⟩ => ?_⟩, fun h => ?_⟩
      · exact Nat.lt_irrefl _ (Nat.lt_of_lt_of_le hlt (Nat.le_trans h hc))
      · rcases h with ⟨n, hn, -⟩ | ⟨hle, hno⟩
        · cases hn
        · exact Nat.le_trans (Nat.not_lt.1 fun hlt => hno ⟨⟨_, rfl⟩, hlt⟩) hle
  | cut newSize hle =>
      exact iff_of_true (List.length_take_le newSize file.content) (.inl ⟨newSize, rfl, rfl⟩)
  | kept call answer hadd hcut =>
      refine ⟨fun h => .inr ⟨h, fun ⟨_, hlt⟩ => Nat.lt_irrefl _ hlt⟩, fun h => ?_⟩
      rcases h with ⟨n, hn, hok⟩ | ⟨hle, -⟩
      · exact absurd hok (hcut n hn)
      · exact hle

theorem covered_afterAll {file : LogFile} (hc : file.Covered) (calls : List Call) :
    (afterAll file calls).Covered := by
  induction calls generalizing file with
  | nil => exact hc
  | cons call calls ih => exact ih ((file.effect call).covered hc)

/-- No call has torn the file since it was opened, or since it was last cut. -/
inductive Mended (file : LogFile) : List Call → Prop where
  | opened : file.Mended []
  | cut {calls : List Call} {call : Call} (hcut : (afterAll file calls).Cuts call) :
      file.Mended (calls ++ [call])
  | went {calls : List Call} {call : Call} (hbefore : file.Mended calls)
      (hno : ¬ (afterAll file calls).Tears call) : file.Mended (calls ++ [call])

/-- **Nothing is stray** exactly if no call has torn the file since the last cut. -/
theorem stray_afterAll_eq_nil_iff {file : LogFile} (hc : file.Covered) (hs : file.stray = [])
    {calls : List Call} : (afterAll file calls).stray = [] ↔ file.Mended calls := by
  have hstep := fun calls => stray_after_eq_nil_iff (covered_afterAll hc calls)
  constructor
  · induction calls using List.reverseRecOn with
    | nil => exact fun _ => .opened
    | append_singleton calls call ih =>
        rw [afterAll_concat, hstep]
        rintro (hcut | ⟨hnil, hno⟩)
        · exact .cut hcut
        · exact .went (ih hnil) hno
  · intro h
    induction h with
    | opened => exact hs
    | cut hcut => rw [afterAll_concat, hstep]; exact .inl hcut
    | went _ hno ih => rw [afterAll_concat, hstep]; exact .inr ⟨ih, hno⟩

/-! ### Reading back -/

theorem keeps_afterAll {file : LogFile} (hc : file.Covered) {e : Nat} (he : e ≤ file.size)
    {calls : List Call} (hcut : ∀ n, .truncate n ∈ calls → e ≤ n) :
    e ≤ (afterAll file calls).size ∧
      (afterAll file calls).content.take e = file.content.take e := by
  induction calls generalizing file with
  | nil => exact ⟨he, rfl⟩
  | cons call calls ih =>
      have heffect := file.effect call
      obtain ⟨he', hkept⟩ := heffect.keeps hc he fun n hn => hcut n (by simp [hn])
      obtain ⟨hlast, hall⟩ := ih (heffect.covered hc) he' fun n hn => hcut n (by simp [hn])
      exact ⟨hlast, hall.trans hkept⟩

theorem answer_read {file : LogFile} {offset len : Nat} (h : offset + len ≤ file.size) :
    answer file (.read offset len) = .ok (.bytes ((file.content.drop offset).take len)) :=
  congrArg Prod.fst (exec_map_eq (exec_read_of_le h) Answer.bytes)

/-- **What an append leaves to be read.** -/
theorem answer_read_after_append {file : LogFile} (hc : file.Covered) {data : Bytes} {o : Nat}
    (hok : answer file (.append data) = .ok (.number o)) {later : List Call}
    (hcut : ∀ n, .truncate n ∈ later → o + data.length ≤ n) :
    answer (afterAll (after file (.append data)) later) (.read o data.length) =
      .ok (.bytes ((file.stray ++ data).take data.length)) := by
  have heffect := file.effect (.append data)
  rw [hok] at heffect
  have hcovered := heffect.covered hc
  generalize after file (.append data) = file' at heffect hcovered ⊢
  cases heffect with
  | appended _ stops =>
      obtain ⟨hin, hkept⟩ := keeps_afterAll hcovered (Nat.le_refl _) hcut
      rw [answer_read hin, List.take_drop, hkept, ← List.take_drop]
      show Except.ok (Answer.bytes (((file.content ++ data).drop file.size).take _)) = _
      rw [List.drop_append_of_le_length hc, stray]
  | kept _ _ hadd _ => exact absurd rfl (hadd data)

end LogFile

/-! ### The end of a range in 64 bits -/

/-- The end of a range, or the greatest number of 64 bits where they do not hold it. -/
def saturatedEnd (offset len : Nat) : Nat := min (offset + len) (UInt64.size - 1)

/-- The end of a range, where 64 bits hold it. -/
def checkedEnd? (offset len : Nat) : Option Nat :=
  if offset + len < UInt64.size then some (offset + len) else none

/-- Reads with the end that a file works with. -/
def LogFile.readSaturated (offset len : Nat) : Action LogFile StorageError Bytes := do
  let file ← get
  if file.size < saturatedEnd offset len then throw (.readPastEnd offset len file.size)
  else return (file.content.drop offset).take len

/-- Reads with the end that memory works with. -/
def Memory.readChecked (offset len : Nat) : Action Memory StorageError Bytes := do
  let content := (← get).bytes
  match checkedEnd? offset len with
  | some e =>
    if e ≤ content.length then return (content.drop offset).take len
    else throw (.readPastEnd offset len content.length)
  | none => throw (.readPastEnd offset len content.length)

theorem LogFile.exec_readSaturated {file : LogFile} (h : file.size < UInt64.size - 1)
    (offset len : Nat) : (readSaturated offset len).exec file = (read offset len).exec file := by
  have hiff : file.size < saturatedEnd offset len ↔ file.size < offset + len := by
    rw [saturatedEnd]
    omega
  rw [readSaturated, read, exec_bind_ok (exec_get file), exec_bind_ok (exec_get file)]
  simp only [hiff]

theorem Memory.exec_readChecked {b : Memory} (h : b.bytes.length < UInt64.size) (offset len : Nat) :
    (readChecked offset len).exec b = (read offset len).exec b := by
  rw [readChecked, exec_bind_ok (exec_get b), checkedEnd?]
  by_cases hin : offset + len < UInt64.size
  · rw [if_pos hin]
    rfl
  · rw [if_neg hin, exec_read_of_lt (Nat.lt_of_lt_of_le h (Nat.not_lt.1 hin)), exec_throw]

/-! ### Beside the same bytes in memory -/

namespace LogFile

theorem exec_read_eq {file : LogFile} (h : file.Whole) (offset len : Nat) :
    ∃ a, (read offset len).exec file = (a, file) ∧
      (Memory.read offset len).exec ⟨file.content⟩ = (a, ⟨file.content⟩) := by
  rcases Nat.lt_or_ge file.content.length (offset + len) with hlt | hle
  · have hfile := @exec_read_of_lt file offset len (h.1 ▸ hlt)
    rw [h.1] at hfile
    exact ⟨_, hfile, Memory.exec_read_of_lt hlt⟩
  · exact ⟨_, exec_read h hle, Memory.exec_read hle⟩

/-- **A file whose writes come to their ends** does with a call what memory does with it. -/
theorem exec_perform {file : LogFile} (h : file.Whole) (call : Call) :
    ∃ a file', (perform call).exec file = (a, file') ∧
      (perform call).exec (Memory.mk file.content) = (a, ⟨file'.content⟩) ∧ file'.Whole := by
  have hsize := h.1
  cases call with
  | append data =>
      obtain ⟨stops, hexec, hstops⟩ := exec_append h data
      refine ⟨_, ⟨file.content ++ data, _, stops⟩, exec_map_eq hexec Answer.number, rfl, ?_, hstops⟩
      rw [List.length_append, hsize]
  | read offset len =>
      obtain ⟨a, hfile, hmemory⟩ := exec_read_eq h offset len
      exact ⟨_, file, exec_map_eq hfile Answer.bytes, exec_map_eq hmemory Answer.bytes, h⟩
  | truncate newSize =>
      rcases Nat.lt_or_ge file.content.length newSize with hlt | hle
      · have hfile := @exec_truncate_of_lt file newSize (hsize ▸ hlt)
        rw [hsize] at hfile
        exact ⟨_, file, exec_map_eq hfile fun _ => Answer.done,
          exec_map_eq (@Memory.exec_truncate_of_lt ⟨file.content⟩ _ hlt) fun _ => Answer.done, h⟩
      · exact ⟨_, ⟨file.content.take newSize, newSize, file.stops⟩,
          exec_map_eq (exec_truncate h hle) fun _ => Answer.done,
          exec_map_eq (@Memory.exec_truncate ⟨file.content⟩ _ hle) fun _ => Answer.done,
          (List.length_take_of_le hle).symm, h.2⟩
  | flush => exact ⟨_, file, rfl, rfl, h⟩
  | sync => exact ⟨_, file, rfl, rfl, h⟩
  | size => exact ⟨_, file, exec_map_eq (exec_size h) Answer.number, rfl, h⟩

theorem answers_eq {file : LogFile} (h : file.Whole) (calls : List Call) :
    answers file calls = answers (Memory.mk file.content) calls ∧
      afterAll (Memory.mk file.content) calls = ⟨(afterAll file calls).content⟩ ∧
      (afterAll file calls).Whole := by
  induction calls generalizing file with
  | nil => exact ⟨rfl, rfl, h⟩
  | cons call calls ih =>
      obtain ⟨a, file', hfile, hmemory, hw⟩ := exec_perform h call
      have hafter : after file call = file' := congrArg Prod.snd hfile
      have hafter' : after (Memory.mk file.content) call = ⟨file'.content⟩ :=
        congrArg Prod.snd hmemory
      have hanswer : answer file call = answer (Memory.mk file.content) call :=
        (congrArg Prod.fst hfile).trans (congrArg Prod.fst hmemory).symm
      obtain ⟨hanswers, hlast, hwhole⟩ := ih hw
      rw [afterAll, afterAll, List.foldl_cons, List.foldl_cons, answers, answers, hafter, hafter',
        hanswer, hanswers]
      exact ⟨rfl, hlast, hwhole⟩

/-! ### Main results -/

/-- A torn file reads a byte back otherwise than it was written. -/
theorem read_back_otherwise {file : LogFile} (hc : file.Covered) (hs : file.stray ≠ [])
    (hnext : file.stops.head?.join = none) :
    ∃ x y o, x ≠ y ∧ answer file (.append [x]) = .ok (.number o) ∧
      answer (after file (.append [x])) (.read o 1) = .ok (.bytes [y]) := by
  obtain ⟨y, rest, hstray⟩ := List.exists_cons_of_ne_nil hs
  have hok : ∀ x, answer file (.append [x]) = .ok (.number file.size) := fun x => by
    obtain ⟨stops, hexec, -⟩ := exec_append_of_next hnext [x]
    exact congrArg Prod.fst (exec_map_eq hexec Answer.number)
  have hread := @answer_read_after_append file hc [y + 1] file.size (hok _) [] (by simp)
  rw [hstray] at hread
  exact ⟨y + 1, y, file.size, by simp, hok _, hread⟩

/-- **Reading back appends.**  Take any calls on a file whose writes may stop anywhere.  An append
that succeeds is read back, after more calls that do not cut below its end, as what was stray
before it followed by its own bytes, as far as its length goes.  If no call has torn the file since
the last cut, then nothing is stray, and it is read back as it was written; otherwise there is a
byte that is not, as soon as a write comes to its end.  Where no write stops, all answers are those
of the same bytes in memory, those to reads that end past 64 bits among them. -/
theorem appends_read_back (content : Bytes) (stops : List (Option Nat)) (calls : List Call) :
    let file := afterAll (opened content stops) calls
    (∀ data o, answer file (.append data) = .ok (.number o) → ∀ later,
      (∀ n, .truncate n ∈ later → o + data.length ≤ n) →
      let last := afterAll (after file (.append data)) later
      answer last (.read o data.length) =
        .ok (.bytes ((file.stray ++ data).take data.length)) ∧
      ((opened content stops).Mended calls →
        answer last (.read o data.length) = .ok (.bytes data))) ∧
    (file.stray = [] ↔ (opened content stops).Mended calls) ∧
    (¬ (opened content stops).Mended calls → file.stops.head?.join = none →
      ∃ x y o, x ≠ y ∧ answer file (.append [x]) = .ok (.number o) ∧
        answer (after file (.append [x])) (.read o 1) = .ok (.bytes [y])) ∧
    ((∀ stop ∈ stops, stop = none) →
      answers (opened content stops) calls = answers (Memory.mk content) calls ∧
      ∀ offset len, file.size < UInt64.size - 1 →
        ((readSaturated offset len).exec file).1 = ((read offset len).exec file).1 ∧
        ((Memory.readChecked offset len).exec (afterAll (Memory.mk content) calls)).1 =
          ((read offset len).exec file).1) := by
  intro file
  have hstart : (opened content stops).Covered := Nat.le_refl _
  have hcovered : file.Covered := covered_afterAll hstart calls
  have hstray : file.stray = [] ↔ (opened content stops).Mended calls :=
    stray_afterAll_eq_nil_iff hstart List.drop_length
  refine ⟨fun data o hok later hcut => ?_, hstray, fun hno => ?_, fun hnone => ?_⟩
  · have hread := answer_read_after_append hcovered hok hcut
    refine ⟨hread, fun hmended => hread.trans ?_⟩
    rw [hstray.2 hmended, List.nil_append, List.take_length]
  · exact read_back_otherwise hcovered (mt hstray.1 hno)
  · have hwhole : (opened content stops).Whole := ⟨rfl, hnone⟩
    obtain ⟨hanswers, hmemory, hlast⟩ := answers_eq hwhole calls
    refine ⟨hanswers, fun offset len hlt => ⟨by rw [exec_readSaturated hlt], ?_⟩⟩
    have hlen : file.content.length < UInt64.size := by
      rw [← hlast.1]
      exact Nat.lt_of_lt_of_le hlt (Nat.sub_le _ _)
    obtain ⟨a, hread, hread'⟩ := exec_read_eq hlast offset len
    show ((Memory.readChecked offset len).exec
      (afterAll (Memory.mk (opened content stops).content) calls)).1 = _
    rw [hmemory, Memory.exec_readChecked hlen, hread, hread']

/-- A write of two bytes stops after the first, and two more are appended: at once, or after a cut.
Then a file whose writes come to their ends, and a read at the end of 64 bits. -/
theorem appends_read_back_of_torn :
    let torn := opened [] [some 1]
    let sound := opened [7] [none]
    let calls : List Call := [.append [1, 2], .read 0 3, .truncate 4, .truncate 1, .size]
    answer (afterAll torn [.append [97, 98]]) (.append [99, 100]) = .ok (.number 0) ∧
    answer (afterAll torn [.append [97, 98], .append [99, 100]]) (.read 0 2) =
      .ok (.bytes [97, 99]) ∧
    ¬ torn.Mended [.append [97, 98]] ∧
    (∃ x y o, x ≠ y ∧
      answer (afterAll torn [.append [97, 98]]) (.append [x]) = .ok (.number o) ∧
      answer (afterAll torn [.append [97, 98], .append [x]]) (.read o 1) = .ok (.bytes [y])) ∧
    answer (afterAll torn [.append [97, 98], .truncate 0, .append [99, 100], .flush]) (.read 0 2) =
      .ok (.bytes [99, 100]) ∧
    answers sound calls = answers (Memory.mk [7]) calls ∧
    ((readSaturated (UInt64.size - 1) 2).exec (afterAll sound calls)).1 =
      ((Memory.readChecked (UInt64.size - 1) 2).exec (afterAll (Memory.mk [7]) calls)).1 := by
  intro torn sound calls
  obtain ⟨hread, hstray, hother, -⟩ := appends_read_back [] [some 1] [.append [97, 98]]
  obtain ⟨hcut, hclean, -⟩ := appends_read_back [] [some 1] [.append [97, 98], .truncate 0]
  obtain ⟨-, -, -, hmemory⟩ := appends_read_back [7] [none] calls
  have htorn : ¬ torn.Mended [.append [97, 98]] := fun h => by cases hstray.2 h
  obtain ⟨hanswers, hends⟩ := hmemory (by simp)
  obtain ⟨hsaturated, hchecked⟩ := hends (UInt64.size - 1) 2 (by decide)
  exact ⟨rfl, (hread [99, 100] 0 rfl [] (by simp)).1, htorn, hother htorn rfl,
    (hcut [99, 100] 0 rfl [.flush] (by simp)).2 (hclean.1 rfl), hanswers,
    hsaturated.trans hchecked.symm⟩

end LogFile

end Rollup
