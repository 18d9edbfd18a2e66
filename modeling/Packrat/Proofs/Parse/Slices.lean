/-
What is collected as a slice of the text. Results may claim any locations, also ones that the text does not have, and
the cursor, the start and the stop of the stretch are each moved to such locations on their own. Whatever is claimed,
the cursor never leaves the text, and the stretch never stops behind the cursor. It starts before it stops as well,
unless a result is taken first that claims to start past the end of its line and to stop on a later one: columns are
counted on into the lines that follow, so more text lies before that start than before the stop.
-/
import Packrat.Parse.Answer
import Packrat.Parse.Matcher
import Packrat.Proofs.Parse.Collecting
import Packrat.Proofs.Text.Splitting

namespace Packrat

/-! ## Locations ahead -/

/-- How far along its line a location is in a text that begins at `start`. -/
def Location.along (start target : Location) : Nat :=
  if target.line = start.line then target.column - start.column else target.column

/-- The location lies past the end of its line in a text that begins at `start`, and more lines follow. -/
def PastLine (rest : List Char) (start target : Location) : Prop :=
  ∃ line, (splitLines rest)[target.line - start.line]? = some line ∧
    target.line - start.line + 1 < (splitLines rest).length ∧ line.length < start.along target

/-- Whole lines and then columns lie up to a location ahead, on the line where the text begins as well. -/
theorem between_eq_takeLines (rest : List Char) {start target : Location} (h : start < target) :
    between rest start target = takeLines (target.line - start.line) (start.along target) rest := by
  have hn : ¬ target ≤ start := Location.not_le.2 h
  rw [between, if_neg hn]
  unfold Location.along
  split
  · next hline => rw [if_neg (by omega)]
  · next hline =>
    rw [Location.lt_def] at h
    have hsame : target.line = start.line := by omega
    rw [if_pos hsame, hsame, Nat.sub_self, takeLines]

/-- A number of lines and then of columns is no more text than a greater number is, unless the columns go on past the
end of the line. -/
theorem length_takeLines_le {n m a b : Nat} {text : List Char} (hle : n < m ∨ n = m ∧ a ≤ b)
    (hline : n < m → ∀ line, (splitLines text)[n]? = some line → n + 1 < (splitLines text).length → a ≤ line.length) :
    (takeLines n a text).length ≤ (takeLines m b text).length := by
  induction text using line_induction generalizing n m with
  | last text h =>
    cases m with
    | zero =>
      obtain ⟨rfl, hab⟩ : n = 0 ∧ a ≤ b := by omega
      exact (List.take_prefix_take_left hab).length_le
    | succ m =>
      have hall : takeLines (m + 1) b text = text := by rw [takeLines, h]
      rw [hall]
      have htaken : takeLines n a text <+: text := takeLines_prefix n a text
      exact htaken.length_le
  | next text line rest h ih =>
    obtain ⟨first, terminator, hsplit, -, -, hlines⟩ := splitLines_of_splitLine h
    rw [hlines] at hline
    cases m with
    | zero =>
      obtain ⟨rfl, hab⟩ : n = 0 ∧ a ≤ b := by omega
      exact (List.take_prefix_take_left hab).length_le
    | succ m =>
      have hfar : takeLines (m + 1) b text = line ++ takeLines m b rest := by rw [takeLines, h]
      rw [hfar, List.length_append]
      cases n with
      | zero =>
        have hrest : 0 < (splitLines rest).length := by have := length_splitLines rest 0; omega
        have ha : a ≤ first.length := hline (Nat.succ_pos m) first rfl (by simpa using hrest)
        have hfirst : first.length ≤ line.length := by rw [hsplit, List.length_append]; omega
        have htake : (takeLines 0 a text).length ≤ a := List.length_take_le a text
        omega
      | succ n =>
        have hnear : takeLines (n + 1) a text = line ++ takeLines n a rest := by rw [takeLines, h]
        rw [hnear, List.length_append]
        refine Nat.add_le_add_left (ih (by omega) fun hlt other hother hmore => ?_) _
        exact hline (by omega) other (by simpa using hother) (by simpa using hmore)

/-- No more text lies up to a location than up to one behind it, unless it is past the end of its line and the other one
is on a later line. -/
theorem length_between_le {rest : List Char} {start near far : Location} (hle : near ≤ far)
    (hnear : near.line < far.line → ¬ PastLine rest start near) :
    (between rest start near).length ≤ (between rest start far).length := by
  by_cases hbehind : near ≤ start
  · rw [between, if_pos hbehind]
    exact Nat.zero_le _
  have hlt : start < near := Location.not_le.1 hbehind
  have hlt' : start < far := Location.lt_of_lt_of_le hlt hle
  rw [between_eq_takeLines rest hlt, between_eq_takeLines rest hlt']
  rw [Location.lt_def] at hlt
  rw [Location.le_def] at hle
  refine length_takeLines_le ?_ fun hlines line hline hmore => ?_
  · unfold Location.along
    split <;> split <;> omega
  · exact Nat.le_of_not_lt fun hpast => hnear (by omega) ⟨line, hline, hmore, hpast⟩

/-! ## Positions within the text -/

namespace Position

/-- The position stands between two characters of the text or at one of its ends. -/
def Within (input : List Char) (p : Position) : Prop := p.offset ≤ input.length

/-- How many bytes precede a position. -/
def byteOffset (input : List Char) (p : Position) : Nat := byteLength (input.take p.offset)

variable {input : List Char} {p q : Position}

theorem offset_moveTo (l : Location) :
    (p.moveTo input l).offset = p.offset + (between (p.rest input) p.location l).length := by
  unfold moveTo
  split
  · next h => rw [between, if_pos h, List.length_nil, Nat.add_zero]
  · rfl

theorem offset_le_moveTo (l : Location) : p.offset ≤ (p.moveTo input l).offset := by
  rw [offset_moveTo]
  exact Nat.le_add_right _ _

/-- No location leads out of the text. -/
theorem Within.moveTo (h : p.Within input) (l : Location) : (p.moveTo input l).Within input := by
  have hpassed : between (p.rest input) p.location l <+: p.rest input := between_prefix (p.rest input) p.location l
  have hlength := hpassed.length_le
  have hrest : (p.rest input).length = input.length - p.offset := List.length_drop
  unfold Within at h ⊢
  rw [offset_moveTo]
  omega

/-- Where characters begin and end is known of the bytes. -/
theorem byteOffset_mem (input : List Char) (p : Position) : p.byteOffset input ∈ byteOffsets 0 input := by
  suffices ∀ (text : List Char) (count offset : Nat), offset + byteLength (text.take count) ∈ byteOffsets offset text by
    simpa [byteOffset] using this input p.offset 0
  intro text
  induction text with
  | nil => simp [byteOffsets, byteLength]
  | cons c text ih =>
    intro count offset
    cases count with
    | zero => exact List.mem_cons_self
    | succ count =>
      rw [List.take_succ_cons, byteLength, ← Nat.add_assoc]
      exact List.mem_cons_of_mem _ (ih count _)

/-- The bytes of a beginning of what is left are counted on from the position. -/
theorem byteOffset_add {taken : List Char} (h : taken <+: p.rest input) :
    p.byteOffset input + byteLength taken = (⟨p.offset + taken.length, p.location⟩ : Position).byteOffset input := by
  have htaken : taken = (input.drop p.offset).take taken.length := List.prefix_iff_eq_take.1 h
  unfold byteOffset
  rw [List.take_add, byteLength_append, ← htaken]

/-- So many bytes on there is no character in two. -/
theorem byteOffset_add_mem {taken : List Char} (h : taken <+: p.rest input) :
    p.byteOffset input + byteLength taken ∈ byteOffsets 0 input := by
  rw [byteOffset_add h]
  exact byteOffset_mem input _

/-- Moving on counts on by the bytes of what lies in between. -/
theorem byteOffset_moveTo (l : Location) :
    (p.moveTo input l).byteOffset input = p.byteOffset input + byteLength (between (p.rest input) p.location l) := by
  rw [byteOffset_add <| between_prefix _ _ _]
  unfold byteOffset
  rw [offset_moveTo]

theorem byteOffset_le (h : p.offset ≤ q.offset) : p.byteOffset input ≤ q.byteOffset input := by
  obtain ⟨more, hmore⟩ := List.take_prefix_take_left (l := input) h
  unfold byteOffset
  rw [← hmore, byteLength_append]
  exact Nat.le_add_right _ _

/-- Counting on in bytes from the position is safe: over lines and columns it gets to where a character begins or the text
ends, and over what lies up to a location it gets to where moving to that location does. -/
structure Counted (input : List Char) (p : Position) : Prop where
  within : p.Within input
  lines : ∀ count column, p.byteOffset input + byteLength (takeLines count column (p.rest input)) ∈ byteOffsets 0 input
  between : ∀ l, p.byteOffset input + byteLength (Packrat.between (p.rest input) p.location l) ∈ byteOffsets 0 input ∧
    (p.moveTo input l).byteOffset input = p.byteOffset input + byteLength (Packrat.between (p.rest input) p.location l)

theorem Within.counted (h : p.Within input) : p.Counted input where
  within := h
  lines _ _ := byteOffset_add_mem <| takeLines_prefix _ _ _
  between l := ⟨byteOffset_add_mem <| between_prefix _ _ _, byteOffset_moveTo l⟩

/-- Cutting the text at two positions in order leaves the text between them. -/
theorem take_append_text (h : p.offset ≤ q.offset) :
    input.take p.offset ++ text input p q ++ input.drop q.offset = input := by
  have hdrop : input.drop q.offset = (p.rest input).drop (q.offset - p.offset) := by
    rw [rest, List.drop_drop, Nat.add_sub_of_le h]
  rw [hdrop, List.append_assoc, text, List.take_append_drop, rest, List.take_append_drop]

end Position

/-- The stretch claims to start behind more of the text than it stops behind. -/
def Span.Overshoots (input : List Char) (p : Position) (s : Span) : Prop :=
  (p.moveTo input s.stop).offset < (p.moveTo input s.start).offset

instance (input : List Char) (p : Position) (s : Span) : Decidable (s.Overshoots input p) :=
  inferInstanceAs (Decidable (_ < _))

/-- A stretch in order overshoots only from past the end of a line to a later line. -/
theorem Span.Overshoots.pastLine {input : List Char} {p : Position} {s : Span} (h : s.Overshoots input p)
    (hs : s.start ≤ s.stop) : s.start.line < s.stop.line ∧ PastLine (p.rest input) p.location s.start := by
  unfold Overshoots at h
  rw [Position.offset_moveTo, Position.offset_moveTo] at h
  refine Classical.byContradiction fun hnot => ?_
  have hle : (between (p.rest input) p.location s.start).length ≤ (between (p.rest input) p.location s.stop).length :=
    length_between_le hs fun hline hpast => hnot ⟨hline, hpast⟩
  omega

/-! ## Collecting step by step -/

namespace Accumulator

/-- What is done with what is collected. -/
inductive Step where
  | add (t : Tree)
  | pass (stop : Location)
  | skip (stop : Location)

/-- Does one step. -/
def step (input : List Char) (acc : Accumulator) : Step → Accumulator
  | .add t => acc.add input t
  | .pass stop => acc.pass input stop
  | .skip stop => acc.skip input stop

/-- Does one step after the other. -/
def steps (input : List Char) (acc : Accumulator) (todo : List Step) : Accumulator := todo.foldl (step input) acc

/-- The stretch and the cursor are within the text, and the stretch does not stop behind the cursor. -/
structure Inside (input : List Char) (acc : Accumulator) : Prop where
  start : acc.start.Within input
  stop_le : acc.stop.offset ≤ acc.cursor.offset
  cursor : acc.cursor.Within input
  idle : acc.begun = false → acc.start = acc.cursor ∧ acc.stop = acc.cursor

/-- The stretch is a slice of the text between two characters of it, told by their bytes, and the cursor is not before
its end. -/
structure Sliced (input : List Char) (acc : Accumulator) : Prop where
  start_le : acc.start.byteOffset input ≤ acc.stop.byteOffset input
  stop_le : acc.stop.byteOffset input ≤ acc.cursor.byteOffset input
  cursor_le : acc.cursor.byteOffset input ≤ byteLength input
  boundaries : ∀ p ∈ [acc.start, acc.stop, acc.cursor], p.Counted input
  slice : input.take acc.start.offset ++ (acc.tree input).extent.text ++ input.drop acc.stop.offset = input

variable {input : List Char} {acc : Accumulator}

/-- The stretch is made longer up to the cursor, or it stays. -/
theorem stop_pass_cases (input : List Char) (acc : Accumulator) (l : Location) :
    (acc.pass input l).stop = acc.cursor.moveTo input l ∨ (acc.pass input l).stop = acc.stop := by
  by_cases h : acc.stop.location < (acc.cursor.moveTo input l).location
  · exact .inl (if_pos h)
  · exact .inr (if_neg h)

namespace Inside

theorem new {p : Position} (h : p.Within input) : (Accumulator.new p).Inside input :=
  ⟨h, Nat.le_refl _, h, fun _ => ⟨rfl, rfl⟩⟩

/-- Where nothing was taken, the stretch is empty. -/
theorem start_le (h : acc.Inside input) (hb : acc.begun = false) : acc.start.offset ≤ acc.stop.offset := by
  have hsame : acc.start = acc.stop := (h.idle hb).1.trans (h.idle hb).2.symm
  exact Nat.le_of_eq (congrArg Position.offset hsame)

/-- Where nothing was taken before, the stretch stops at the cursor. -/
theorem stop_eq_cursor (h : acc.Inside input) (l : Location) (hb : acc.begun = false) :
    (acc.pass input l).stop = acc.cursor.moveTo input l :=
  stop_pass (h.idle hb).2 l

theorem pass (h : acc.Inside input) (l : Location) : (acc.pass input l).Inside input := by
  refine ⟨h.start, ?_, h.cursor.moveTo l, nofun⟩
  rw [cursor_pass]
  obtain hstop | hstop := stop_pass_cases input acc l
  · exact Nat.le_of_eq (congrArg Position.offset hstop)
  · rw [hstop]
    exact Nat.le_trans h.stop_le (Position.offset_le_moveTo l)

theorem add (h : acc.Inside input) (t : Tree) : (acc.add input t).Inside input := by
  have hpass := h.pass t.extent.stop
  refine ⟨?_, hpass.stop_le, hpass.cursor, nofun⟩
  show Position.Within input (if acc.begun then _ else _)
  split
  · exact h.start
  · exact h.cursor.moveTo _

theorem skip (h : acc.Inside input) (l : Location) : (acc.skip input l).Inside input := by
  have hcursor := h.cursor.moveTo l
  unfold Accumulator.skip
  simp only
  split
  · next hb =>
    exact ⟨h.start, Nat.le_trans h.stop_le (Position.offset_le_moveTo l), hcursor, fun hn => absurd (hb.symm.trans hn) nofun⟩
  · exact ⟨hcursor, Nat.le_refl _, hcursor, fun _ => ⟨rfl, rfl⟩⟩

theorem step (h : acc.Inside input) (todo : Step) : (acc.step input todo).Inside input := by
  cases todo with
  | add t => exact h.add t
  | pass stop => exact h.pass stop
  | skip stop => exact h.skip stop

theorem steps (h : acc.Inside input) (todo : List Step) : (acc.steps input todo).Inside input := by
  induction todo generalizing acc with
  | nil => exact h
  | cons next todo ih => exact ih (h.step next)

/-- Positions in order make the stretch a slice. -/
theorem sliced (h : acc.Inside input) (hle : acc.start.offset ≤ acc.stop.offset) : acc.Sliced input where
  start_le := Position.byteOffset_le hle
  stop_le := Position.byteOffset_le h.stop_le
  cursor_le := by
    have hall : (⟨input.length, acc.cursor.location⟩ : Position).byteOffset input = byteLength input := by
      rw [Position.byteOffset, List.take_length]
    exact hall ▸ Position.byteOffset_le h.cursor
  boundaries := by
    have hstop : acc.stop.Within input := Nat.le_trans h.stop_le h.cursor
    simp [h.start.counted, hstop.counted, h.cursor.counted]
  slice := by
    rw [extent_tree]
    exact Position.take_append_text hle

end Inside

/-! ## The order of the stretch -/

/-- Input was taken, and the stretch starts before it stops. -/
def Settled (acc : Accumulator) : Prop := acc.begun = true ∧ acc.start.offset ≤ acc.stop.offset

theorem Settled.pass (h : acc.Settled) (hin : acc.Inside input) (l : Location) : (acc.pass input l).Settled := by
  refine ⟨rfl, ?_⟩
  show acc.start.offset ≤ (acc.pass input l).stop.offset
  obtain hstop | hstop := stop_pass_cases input acc l
  · rw [hstop]
    exact Nat.le_trans h.2 (Nat.le_trans hin.stop_le (Position.offset_le_moveTo l))
  · rw [hstop]
    exact h.2

/-- Once it is settled where the stretch starts, it does not stop before that any more. -/
theorem Settled.step (h : acc.Settled) (hin : acc.Inside input) (todo : Step) : (acc.step input todo).Settled := by
  cases todo with
  | add t =>
    have hstart : (acc.add input t).start = (acc.pass input t.extent.stop).start := if_pos h.1
    refine ⟨rfl, ?_⟩
    show (acc.add input t).start.offset ≤ _
    rw [hstart]
    exact (h.pass hin t.extent.stop).2
  | pass stop => exact h.pass hin stop
  | skip stop =>
    show (acc.skip input stop).Settled
    unfold Accumulator.skip
    rw [if_pos h.1]
    exact h

theorem Settled.steps (h : acc.Settled) (hin : acc.Inside input) (todo : List Step) : (acc.steps input todo).Settled := by
  induction todo generalizing acc with
  | nil => exact h
  | cons next todo ih => exact ih (h.step hin next) (hin.step next)

/-- What is taken first does not overshoot, if it is a result. -/
def Fits (input : List Char) : Position → List Step → Prop
  | _, [] => True
  | cursor, .skip stop :: todo => Fits input (cursor.moveTo input stop) todo
  | cursor, .add t :: _ => ¬ t.extent.Overshoots input cursor
  | _, .pass _ :: _ => True

/-- At every point on the way the stretch starts before it stops. -/
def StaysOrdered (input : List Char) (acc : Accumulator) (todo : List Step) : Prop :=
  ∀ done, done <+: todo → (acc.steps input done).start.offset ≤ (acc.steps input done).stop.offset

theorem staysOrdered_cons {next : Step} {todo : List Step} : acc.StaysOrdered input (next :: todo) ↔
    acc.start.offset ≤ acc.stop.offset ∧ (acc.step input next).StaysOrdered input todo := by
  constructor
  · intro h
    exact ⟨h [] List.nil_prefix, fun done hdone => h (next :: done) ((List.prefix_cons_inj next).2 hdone)⟩
  · rintro ⟨hnow, hlater⟩ done hdone
    rcases List.prefix_cons_iff.1 hdone with rfl | ⟨done, rfl, hdone⟩
    · exact hnow
    · exact hlater done ((List.prefix_cons_inj next).1 hdone)

theorem Settled.staysOrdered (h : acc.Settled) (hin : acc.Inside input) (todo : List Step) : acc.StaysOrdered input todo :=
  fun done _ => (h.steps hin done).2

/-- As long as nothing was taken, it only matters whether what is taken first fits. -/
theorem staysOrdered_iff (hin : acc.Inside input) (hb : acc.begun = false) (todo : List Step) :
    acc.StaysOrdered input todo ↔ Fits input acc.cursor todo := by
  induction todo generalizing acc with
  | nil =>
    refine ⟨fun _ => trivial, fun _ done hdone => ?_⟩
    rw [List.prefix_nil.1 hdone]
    exact hin.start_le hb
  | cons next todo ih =>
    rw [staysOrdered_cons, and_iff_right (hin.start_le hb)]
    cases next with
    | skip stop =>
      have hb' : (acc.skip input stop).begun = false := by
        unfold Accumulator.skip
        simp [hb]
      refine (ih (hin.skip stop) hb').trans ?_
      rw [cursor_skip]
      rfl
    | pass stop =>
      have hsettled : (acc.pass input stop).Settled := by
        refine ⟨rfl, ?_⟩
        show acc.start.offset ≤ (acc.pass input stop).stop.offset
        rw [hin.stop_eq_cursor stop hb, (hin.idle hb).1]
        exact Position.offset_le_moveTo stop
      exact iff_of_true (hsettled.staysOrdered (hin.pass stop) todo) trivial
    | add t =>
      have hstart : (acc.add input t).start = acc.cursor.moveTo input t.extent.start := if_neg (by simp [hb])
      have hstop : (acc.add input t).stop = acc.cursor.moveTo input t.extent.stop := hin.stop_eq_cursor _ hb
      have hfits : (acc.add input t).start.offset ≤ (acc.add input t).stop.offset ↔ ¬ t.extent.Overshoots input acc.cursor := by
        rw [hstart, hstop]
        exact Nat.not_lt.symm
      exact ⟨fun h => hfits.1 (h [] List.nil_prefix), fun h => Settled.staysOrdered ⟨rfl, hfits.2 h⟩ (hin.add t) todo⟩

/-- What does not fit claims to start past the end of its line, from where it is taken, and to stop on a later one. -/
theorem exists_pastLine_of_not_fits {todo : List Step} (hle : ∀ t, .add t ∈ todo → t.extent.start ≤ t.extent.stop)
    (h : ¬ Fits input acc.cursor todo) : ∃ before t after, todo = before ++ .add t :: after ∧
      t.extent.start.line < t.extent.stop.line ∧
      PastLine ((acc.steps input before).cursor.rest input) (acc.steps input before).cursor.location t.extent.start := by
  induction todo generalizing acc with
  | nil => exact absurd trivial h
  | cons next todo ih =>
    cases next with
    | skip stop =>
      rw [Fits, ← cursor_skip] at h
      obtain ⟨before, t, after, rfl, hpast⟩ := ih (fun t ht => hle t (List.mem_cons_of_mem _ ht)) h
      exact ⟨.skip stop :: before, t, after, rfl, hpast⟩
    | pass stop => exact absurd trivial h
    | add t => exact ⟨[], t, todo, rfl, (Classical.not_not.1 h).pastLine (hle t List.mem_cons_self)⟩

/-- Whatever is collected, left out and skipped, the cursor stays in the text and the stretch stops before it. The stretch
starts before it stops at every point on the way just when what is taken first fits, and then it is a slice of the text.
What does not fit, though in order itself, starts past the end of its line and stops on a later one. -/
theorem steps_sliced (input : List Char) (origin : Position) (todo : List Step) (horigin : origin.Within input)
    (htodo : ∀ t, .add t ∈ todo → t.extent.start ≤ t.extent.stop) :
    (∀ done, done <+: todo → ((new origin).steps input done).Inside input) ∧
      ((new origin).StaysOrdered input todo ↔ Fits input origin todo) ∧
      (Fits input origin todo → ∀ done, done <+: todo → ((new origin).steps input done).Sliced input) ∧
      (¬ Fits input origin todo → ∃ before t after, todo = before ++ .add t :: after ∧
        t.extent.start.line < t.extent.stop.line ∧
        PastLine (((new origin).steps input before).cursor.rest input) ((new origin).steps input before).cursor.location
          t.extent.start) := by
  have hin : (new origin).Inside input := .new horigin
  have hiff : (new origin).StaysOrdered input todo ↔ Fits input origin todo := staysOrdered_iff hin rfl todo
  exact ⟨fun done _ => hin.steps done, hiff, fun hfits done hdone => (hin.steps done).sliced (hiff.2 hfits done hdone),
    fun hnot => exists_pastLine_of_not_fits htodo (show ¬ Fits input (new origin).cursor todo from hnot)⟩

/-- Behind a line break and a blank a letter is taken, behind another break one more, and then what is left out claims to
stop behind the text. -/
theorem steps_sliced_letters :
    let input := ['\r', '\n', ' ', 'é', '\r', '\n', 'b']
    let todo : List Step := [.skip ⟨1, 1⟩, .add (.ofText ['é'] ⟨1, 1⟩), .skip ⟨2, 0⟩, .add (.ofText ['b'] ⟨2, 0⟩), .pass ⟨5, 3⟩]
    Position.origin.Within input ∧ Fits input .origin todo ∧ ((new .origin).steps input todo).Sliced input ∧
      ((new .origin).steps input todo).start.byteOffset input = 3 ∧
      ((new .origin).steps input todo).stop.byteOffset input = 8 ∧
      (((new .origin).steps input todo).tree input).extent = ⟨⟨1, 1⟩, ⟨5, 3⟩, ['é', '\r', '\n', 'b']⟩ := by
  intro input todo
  have horigin : Position.origin.Within input := Nat.zero_le _
  have htodo : ∀ t, .add t ∈ todo → t.extent.start ≤ t.extent.stop := by
    intro t ht
    have hmem : t = .ofText ['é'] ⟨1, 1⟩ ∨ t = .ofText ['b'] ⟨2, 0⟩ := by simpa [todo] using ht
    rcases hmem with rfl | rfl <;> decide
  have hfits : Fits input .origin todo := by
    show ¬ (Tree.ofText ['é'] ⟨1, 1⟩).extent.Overshoots input (Position.origin.moveTo input ⟨1, 1⟩)
    decide
  have hsliced := (steps_sliced input .origin todo horigin htodo).2.2.1 hfits todo List.prefix_rfl
  exact ⟨horigin, hfits, hsliced, by decide, by decide, by decide⟩

/-- A result that claims to start past the end of the second line and to stop where the third one begins. -/
def farMark : Tree := .text (.own ⟨⟨1, 4⟩, ⟨2, 0⟩, []⟩) ['x']

end Accumulator

namespace Grammar

/-- Letters behind a mark that may be missing. -/
def ofFarMarks : Grammar where
  start := "s"
  rules := [("s", .merge [.repetition (.literal ['q']) ⟨0, some 1⟩
    (some (.list (.own (.empty .origin)) [Accumulator.farMark])), .literal ['b', 'c', 'd']])]
  skipper := none
  overrides := []
  productions := []
  kinds := .empty

end Grammar

namespace Accumulator

/-- Four columns on from the beginning of the second line are in the third one, behind where the mark stops. When more is
taken, the stretch stops behind its start again, but it lacks what lies between. -/
theorem stretch_out_of_order :
    let input := ['\n', 'a', '\n', 'b', 'c', 'd']
    farMark.extent.start ≤ farMark.extent.stop ∧ ((new .origin).add input farMark).start.offset = 5 ∧
      ((new .origin).add input farMark).stop.offset = 3 ∧ ¬ (new .origin).StaysOrdered input [.add farMark] ∧
      (Grammar.ofFarMarks.parse .standard .nothing input).result.toOption.map (·.extent) =
        some ⟨⟨1, 4⟩, ⟨2, 3⟩, ['d']⟩ := by
  refine ⟨by decide, by decide, by decide, fun h => ?_, by decide +kernel⟩
  have hordered := h [.add farMark] List.prefix_rfl
  exact absurd hordered (by decide)

end Accumulator

end Packrat
