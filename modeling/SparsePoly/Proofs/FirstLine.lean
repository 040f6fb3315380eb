import SparsePoly.Storage.Line

/-!
# The first line decides

Reading a polynomial looks at windows of bytes, but what it comes to depends on the bytes alone: on
the first line, on whether there is more behind it, and on the place where the source breaks.
`Poly.Outcome` says which result there is and how many bytes are consumed, and has no windows.

A source can run into the end of the first line or break before it, and both are inductions over
its windows: either exactly this line is consumed (`Source.readLine_eq_ok`), or exactly the bytes
before the break (`Source.readLine_eq_error`).  A break behind the line is met only by the look at
what follows, so that all faults of the line itself come first.

## Main definitions

* `FirstLine` - cuts bytes behind their first newline
* `Poly.LineOutcome`, `Poly.Outcome` - a constructor for each result of a line, and of a source

## Main statements

* `Source.readLine_eq_ok`, `Source.readLine_eq_error` - a line is read, for windows of any size
* `Poly.readFrom_outcome` - every source has an outcome, for windows of any size
-/

namespace SparsePoly

/-! ### Lines of bytes -/

namespace Source

theorem throughNewline_append_of_mem {front back : List UInt8} (ends : newline ∈ front) :
    throughNewline (front ++ back) = throughNewline front := by
  induction front with
  | nil => cases ends
  | cons b front ih =>
    rw [List.cons_append, throughNewline, throughNewline]
    by_cases here : b = newline
    · rw [if_pos here, if_pos here]
    · rw [if_neg here, if_neg here, ih ((List.mem_cons.mp ends).resolve_left (Ne.symm here))]

theorem throughNewline_append_of_not_mem {front back : List UInt8} (goes_on : newline ∉ front) :
    throughNewline (front ++ back) = front ++ throughNewline back := by
  induction front with
  | nil => rfl
  | cons b front ih =>
    obtain ⟨other, later⟩ := List.ne_and_not_mem_of_not_mem_cons goes_on
    rw [List.cons_append, throughNewline, if_neg (Ne.symm other), ih later, List.cons_append]

theorem throughNewline_of_not_mem {bytes : List UInt8} (goes_on : newline ∉ bytes) :
    throughNewline bytes = bytes := by
  have whole := @throughNewline_append_of_not_mem bytes [] goes_on
  rwa [List.append_nil, throughNewline, List.append_nil] at whole

/-- Every byte sequence that is not empty has a line that is not empty. -/
theorem eq_nil_of_throughNewline {bytes : List UInt8} (none_left : throughNewline bytes = []) :
    bytes = [] := by
  cases bytes with
  | nil => rfl
  | cons b bytes =>
    rw [throughNewline] at none_left
    split at none_left <;> cases none_left

/-! ### Windows -/

/-- Windows are not empty before the end. -/
def Offers (s : Source) : Prop := ∀ n ∈ s.chunk, 0 < n

/-- The source does not break before the end of its first line. -/
def ReachesLineEnd (s : Source) : Prop :=
  ∀ b ∈ s.breaks, s.rest.length < b.after ∨ newline ∈ s.rest.take b.after

theorem consume_zero (s : Source) : s.consume 0 = s := by
  obtain ⟨rest, chunk, breaks⟩ := s
  cases breaks <;> rfl

theorem consume_consume (s : Source) (first second : Nat) :
    (s.consume first).consume second = s.consume (first + second) := by
  obtain ⟨rest, chunk, breaks⟩ := s
  cases breaks <;> simp [consume, Nat.sub_sub]

theorem prefix_limited (limit : Option Nat) (bytes : List UInt8) :
    limited limit bytes <+: bytes := by
  cases limit with
  | none => exact List.prefix_rfl
  | some n => exact List.take_prefix n bytes

theorem limited_eq_nil {limit : Option Nat} (positive : ∀ n ∈ limit, 0 < n) {bytes : List UInt8} :
    limited limit bytes = [] ↔ bytes = [] := by
  cases limit with
  | none => exact Iff.rfl
  | some n =>
    have := positive n rfl
    rw [limited, List.take_eq_nil_iff]
    exact or_iff_right (by omega)

/-- There is no window exactly where the source breaks. -/
theorem window_eq_error_iff {s : Source} {reason : String} :
    s.window = .error reason ↔ ∃ b ∈ s.breaks, b.after = 0 ∧ b.reason = reason := by
  rw [window]
  cases s.breaks with
  | none => simp
  | some b => by_cases at_once : b.after = 0 <;> simp [at_once]

section Window

variable {s : Source} {bytes : List UInt8} (offered : s.window = .ok bytes)
include offered

/-- No window goes beyond the place where the source breaks. -/
theorem prefix_take_of_window {b : Break} (isBreak : b ∈ s.breaks) :
    bytes <+: s.rest.take b.after := by
  obtain ⟨rest, chunk, breaks⟩ := s
  obtain rfl : breaks = some b := isBreak
  rw [window] at offered
  dsimp only at offered
  split at offered
  · cases offered
  · cases offered
    exact prefix_limited _ _

/-- A window is a beginning of what is left. -/
theorem prefix_window : bytes <+: s.rest := by
  cases isBreak : s.breaks with
  | none =>
    rw [window, isBreak] at offered
    cases offered
    exact prefix_limited _ _
  | some b => exact (prefix_take_of_window offered isBreak).trans (List.take_prefix _ _)

/-- Only at the end a window is empty. -/
theorem rest_eq_nil_of_window (offers : s.Offers) (empty : bytes = []) : s.rest = [] := by
  rw [window] at offered
  split at offered
  · cases offered
    exact (limited_eq_nil offers).mp empty
  · split at offered
    · cases offered
    · rename_i not_yet
      cases offered
      exact (List.take_eq_nil_iff.mp ((limited_eq_nil offers).mp empty)).resolve_left not_yet

/-- Behind a window without a newline the line ends where it did. -/
theorem reachesLineEnd_consume (reaches : s.ReachesLineEnd) (goes_on : newline ∉ bytes) :
    (s.consume bytes.length).ReachesLineEnd := by
  obtain ⟨more, whole⟩ := prefix_window offered
  intro b b_mem
  obtain ⟨c, c_mem, rfl⟩ := Option.map_eq_some_iff.mp b_mem
  have drop : (s.consume bytes.length).rest = more := by
    rw [rest_consume, ← whole, List.drop_left]
  rw [drop]
  show more.length < c.after - bytes.length ∨ newline ∈ more.take (c.after - bytes.length)
  rcases reaches c c_mem with beyond | before
  · rw [← whole, List.length_append] at beyond
    exact Or.inl (by omega)
  · rw [← whole, List.take_append] at before
    exact Or.inr ((List.mem_append.mp before).resolve_left fun mem =>
      goes_on (List.mem_of_mem_take mem))

end Window

/-! ### The first line -/

/-- **A line is read as it stands**, for windows of any size: everything up to the first newline is
read, and nothing else is consumed. -/
theorem readLine_eq_ok {s : Source} (offers : s.Offers) (reaches : s.ReachesLineEnd) :
    s.readLine = (.ok (throughNewline s.rest), s.consume (throughNewline s.rest).length) := by
  fun_induction readLine s with
  | case1 s reason broken =>
    obtain ⟨b, isBreak, at_once, -⟩ := window_eq_error_iff.mp broken
    have := reaches b isBreak
    rw [at_once] at this
    simp at this
  | case2 s bytes offered none_left =>
    have empty := eq_nil_of_throughNewline (List.eq_nil_of_length_eq_zero none_left)
    have nothing := rest_eq_nil_of_window offered offers empty
    rw [nothing, throughNewline, List.length_nil, consume_zero]
  | case3 s bytes offered _ ends =>
    obtain ⟨more, whole⟩ := prefix_window offered
    rw [← whole, throughNewline_append_of_mem ends]
  | case4 s bytes offered _ goes_on more ih =>
    subst more
    rw [throughNewline_of_not_mem goes_on] at ih ⊢
    obtain ⟨later, whole⟩ := prefix_window offered
    have drop : (s.consume bytes.length).rest = later := by
      rw [rest_consume, ← whole, List.drop_left]
    have read := ih offers (reachesLineEnd_consume offered reaches goes_on)
    rw [drop, consume_consume] at read
    rw [← whole, throughNewline_append_of_not_mem goes_on, List.length_append, read]
    rfl

/-- **A source that breaks within its first line** is consumed up to there, and no further. -/
theorem readLine_eq_error {s : Source} (offers : s.Offers) {b : Break} (breaks : b ∈ s.breaks)
    (within : b.after ≤ s.rest.length) (goes_on : newline ∉ s.rest.take b.after) :
    s.readLine = (.error b.reason, s.consume b.after) := by
  fun_induction readLine s generalizing b with
  | case1 s reason broken =>
    obtain ⟨c, c_mem, at_once, rfl⟩ := window_eq_error_iff.mp broken
    obtain rfl := Option.mem_unique breaks c_mem
    rw [at_once, consume_zero]
  | case2 s bytes offered none_left =>
    have empty := eq_nil_of_throughNewline (List.eq_nil_of_length_eq_zero none_left)
    have nothing := rest_eq_nil_of_window offered offers empty
    have at_once : b.after = 0 := by
      rw [nothing] at within
      exact Nat.le_zero.mp within
    have broken := window_eq_error_iff.mpr ⟨b, breaks, at_once, rfl⟩
    rw [broken] at offered
    cases offered
  | case3 s bytes offered _ ends =>
    obtain ⟨more, whole⟩ := prefix_take_of_window offered breaks
    rw [← whole] at goes_on
    exact absurd (List.mem_append_left more ends) goes_on
  | case4 s bytes offered _ no_end more ih =>
    subst more
    rw [throughNewline_of_not_mem no_end] at ih ⊢
    -- The window does not reach the break, which is nearer behind it by the length of the window.
    have before := (prefix_take_of_window offered breaks).length_le
    rw [List.length_take, Nat.min_eq_left within] at before
    have read := @ih offers ⟨b.after - bytes.length, b.reason⟩
      (Option.map_eq_some_iff.mpr ⟨b, breaks, rfl⟩)
      (by rw [rest_consume, List.length_drop]; exact Nat.sub_le_sub_right within _)
      (by rw [rest_consume, ← List.drop_take]; exact fun mem => goes_on (List.mem_of_mem_drop mem))
    rw [read, consume_consume, Nat.add_sub_cancel' before]
    rfl

end Source

/-! ### What a source comes to -/

/-- The first line of some bytes, with its newline if it has one, and what is behind it. -/
inductive FirstLine : List UInt8 → List UInt8 → List UInt8 → Prop where
  /-- A line up to the first newline. -/
  | ended {front back : List UInt8} (goes_on : Source.newline ∉ front) :
    FirstLine (front ++ Source.newline :: back) (front ++ [Source.newline]) back
  /-- Without a newline everything is one line. -/
  | unended {bytes : List UInt8} (goes_on : Source.newline ∉ bytes) : FirstLine bytes bytes []

namespace FirstLine

theorem exists_of_bytes (bytes : List UInt8) : ∃ line behind, FirstLine bytes line behind := by
  by_cases ends : Source.newline ∈ bytes
  · obtain ⟨front, back, rfl, goes_on⟩ := List.eq_append_cons_of_mem ends
    exact ⟨_, _, .ended goes_on⟩
  · exact ⟨_, _, .unended ends⟩

variable {bytes line behind : List UInt8} (first : FirstLine bytes line behind)
include first

theorem append_eq : line ++ behind = bytes := by
  cases first with
  | ended goes_on => simp
  | unended goes_on => exact List.append_nil _

theorem throughNewline_eq : Source.throughNewline bytes = line := by
  cases first with
  | ended goes_on =>
    rw [Source.throughNewline_append_of_not_mem goes_on, Source.throughNewline, if_pos rfl]
  | unended goes_on => exact Source.throughNewline_of_not_mem goes_on

/-- Bytes that reach a newline reach the end of the line. -/
theorem length_le_of_mem_take {count : Nat} (ends : Source.newline ∈ bytes.take count) :
    line.length ≤ count := by
  cases first with
  | @ended front back goes_on =>
    rw [List.length_append, List.length_singleton]
    refine Nat.lt_of_not_le fun short => ?_
    rw [List.take_append_of_le_length short] at ends
    exact goes_on (List.mem_of_mem_take ends)
  | unended goes_on => exact absurd (List.mem_of_mem_take ends) goes_on

end FirstLine

namespace Poly

/-- What becomes of a line that has been reached, with `behind` behind it. -/
inductive LineOutcome (line behind : List UInt8) (breaks : Option Break) : Report Poly → Prop where
  /-- There is no line. -/
  | missing (nothing : line = []) : LineOutcome line behind breaks (.fault .missingLine)
  /-- Its bytes are no text. -/
  | invalidText (no_text : ∀ text, line ≠ Text.encode text) :
    LineOutcome line behind breaks (.fault (.failure .invalidText))
  /-- The text is no expression. -/
  | malformed {text : List Char} {e : ParseError} (present : line ≠ [])
    (is_text : line = Text.encode text) (unread : parse text = .error e) :
    LineOutcome line behind breaks (.fault (.malformed e))
  /-- The source breaks right behind it. -/
  | broken {text : List Char} {p : Poly} {b : Break} (is_text : line = Text.encode text)
    (read : parse text = .ok p) (isBreak : b ∈ breaks) (at_end : b.after = line.length) :
    LineOutcome line behind breaks (.fault (.failure (.broken b.reason)))
  /-- It is read, and what is behind it makes an event. -/
  | read {text : List Char} {p : Poly} (is_text : line = Text.encode text)
    (read : parse text = .ok p) (goes_on : ∀ b ∈ breaks, b.after ≠ line.length) :
    LineOutcome line behind breaks ⟨.ok p, if behind = [] then [] else [.trailingContent]⟩

/-- What a source with these bytes comes to, and how many of them are consumed. -/
inductive Outcome (bytes : List UInt8) (breaks : Option Break) : Report Poly → Nat → Prop where
  /-- It breaks before the first line ends. -/
  | broken {b : Break} (isBreak : b ∈ breaks) (within : b.after ≤ bytes.length)
    (goes_on : Source.newline ∉ bytes.take b.after) :
    Outcome bytes breaks (.fault (.failure (.broken b.reason))) b.after
  /-- The first line is reached, and it decides. -/
  | reached {line behind : List UInt8} {report : Report Poly} (first : FirstLine bytes line behind)
    (reaches : ∀ b ∈ breaks, bytes.length < b.after ∨ Source.newline ∈ bytes.take b.after)
    (outcome : LineOutcome line behind breaks report) : Outcome bytes breaks report line.length

section Line

variable {line behind : List UInt8}

theorem ofLine_of_no_text (no_text : ∀ text, line ≠ Text.encode text) :
    ofLine line = .error (.failure .invalidText) := by
  have present : line ≠ [] := no_text []
  rw [ofLine, if_neg (by simpa using present), Text.decode_eq_none_iff.mpr no_text]

theorem ofLine_of_text {text : List Char} (present : line ≠ [])
    (is_text : line = Text.encode text) : ofLine line = (parse text).mapError .malformed := by
  rw [ofLine, if_neg (by simpa using present), is_text, Text.decode_encode]

/-- The text of an expression is a line. -/
theorem ofLine_of_read {text : List Char} {p : Poly} (is_text : line = Text.encode text)
    (read : parse text = .ok p) : ofLine line = .ok p := by
  have present : line ≠ [] := by
    rintro rfl
    have decoded : Text.decode [] = some text := is_text ▸ Text.decode_encode text
    obtain rfl : [] = text := Option.some.inj decoded
    cases read
  rw [ofLine_of_text present is_text, read]
  rfl

theorem exists_lineOutcome (line behind : List UInt8) (breaks : Option Break) :
    ∃ report, LineOutcome line behind breaks report := by
  by_cases present : line = []
  · exact ⟨_, .missing present⟩
  by_cases is_text : ∃ text, line = Text.encode text
  · obtain ⟨text, is_text⟩ := is_text
    cases read : parse text with
    | error e => exact ⟨_, .malformed present is_text read⟩
    | ok p =>
      by_cases ends : ∃ b ∈ breaks, b.after = line.length
      · obtain ⟨b, isBreak, at_end⟩ := ends
        exact ⟨_, .broken is_text read isBreak at_end⟩
      · exact ⟨_, .read is_text read fun b isBreak at_end => ends ⟨b, isBreak, at_end⟩⟩
  · exact ⟨_, .invalidText fun text eq => is_text ⟨text, eq⟩⟩

/-- The line decides: for windows of any size this is the report, and the line is consumed. -/
theorem LineOutcome.readFrom_eq {s : Source} {report : Report Poly} (offers : s.Offers)
    (first : FirstLine s.rest line behind) (reaches : s.ReachesLineEnd)
    (outcome : LineOutcome line behind s.breaks report) :
    readFrom s = (report, s.consume line.length) := by
  have left : (s.consume line.length).rest = behind := by
    rw [Source.rest_consume, ← first.append_eq, List.drop_left]
  rw [readFrom, Source.readLine_eq_ok offers reaches, first.throughNewline_eq]
  cases outcome with
  | missing nothing =>
    subst nothing
    rfl
  | invalidText no_text => simp only [ofLine_of_no_text no_text]
  | malformed present is_text unread =>
    simp only [ofLine_of_text present is_text, unread]
    rfl
  | @broken text p b is_text read isBreak at_end =>
    have at_once : b.after - line.length = 0 := Nat.sub_eq_zero_of_le (Nat.le_of_eq at_end)
    have broken : (s.consume line.length).window = .error b.reason :=
      Source.window_eq_error_iff.mpr ⟨⟨b.after - line.length, b.reason⟩,
        Option.map_eq_some_iff.mpr ⟨b, isBreak, rfl⟩, at_once, rfl⟩
    simp only [ofLine_of_read is_text read, broken]
  | read is_text read goes_on =>
    simp only [ofLine_of_read is_text read]
    cases offered : (s.consume line.length).window with
    | error reason =>
      -- A source that breaks here breaks before the end of its line, or at it.
      obtain ⟨c, c_mem, at_once, -⟩ := Source.window_eq_error_iff.mp offered
      obtain ⟨b, isBreak, rfl⟩ := Option.map_eq_some_iff.mp c_mem
      have below : b.after ≤ line.length := Nat.sub_eq_zero_iff_le.mp at_once
      refine absurd (Nat.le_antisymm below ?_) (goes_on b isBreak)
      rcases reaches b isBreak with beyond | before
      · rw [← first.append_eq, List.length_append] at beyond
        omega
      · exact first.length_le_of_mem_take before
    | ok more =>
      have at_end : more = [] ↔ behind = [] := by
        rw [← left]
        refine ⟨Source.rest_eq_nil_of_window offered offers, fun nothing => ?_⟩
        have := Source.prefix_window offered
        rwa [nothing, List.prefix_nil] at this
      simp only [List.isEmpty_iff, at_end]

end Line

/-- **The first line decides.**  Every source has an outcome, and for windows of any size the
outcome is what is read and the bytes that are consumed. -/
theorem readFrom_outcome (bytes : List UInt8) (breaks : Option Break) :
    (∃ report consumed, Outcome bytes breaks report consumed) ∧
      ∀ report consumed, Outcome bytes breaks report consumed →
        consumed ≤ bytes.length ∧
          ∀ chunk : Option Nat, (∀ n ∈ chunk, 0 < n) →
            readFrom ⟨bytes, chunk, breaks⟩ =
              (report, Source.consume ⟨bytes, chunk, breaks⟩ consumed) := by
  constructor
  · by_cases breaking : ∃ b ∈ breaks, b.after ≤ bytes.length ∧ Source.newline ∉ bytes.take b.after
    · obtain ⟨b, isBreak, within, goes_on⟩ := breaking
      exact ⟨_, _, .broken isBreak within goes_on⟩
    · obtain ⟨line, behind, first⟩ := FirstLine.exists_of_bytes bytes
      obtain ⟨report, outcome⟩ := exists_lineOutcome line behind breaks
      refine ⟨report, _, .reached first (fun b isBreak => ?_) outcome⟩
      refine (Nat.lt_or_ge bytes.length b.after).imp_right fun within => ?_
      exact Decidable.byContradiction fun goes_on => breaking ⟨b, isBreak, within, goes_on⟩
  · intro report consumed outcome
    cases outcome with
    | broken isBreak within goes_on =>
      refine ⟨within, fun chunk offers => ?_⟩
      have read := @Source.readLine_eq_error ⟨bytes, chunk, breaks⟩ offers _ isBreak within goes_on
      rw [readFrom, read]
    | @reached line behind report first reaches outcome =>
      refine ⟨?_, fun chunk offers => outcome.readFrom_eq offers first reaches⟩
      rw [← first.append_eq, List.length_append]
      exact Nat.le_add_right _ _

/-- A source that breaks inside a character, and one that breaks behind a line with a blank, where
the blank counts. -/
theorem readFrom_of_broken :
    Outcome [0x31, 0xC3, 0xA9] (some ⟨2, "gone"⟩) (.fault (.failure (.broken "gone"))) 2 ∧
      readFrom ⟨[0x31, 0xC3, 0xA9], some 1, some ⟨2, "gone"⟩⟩ =
        (.fault (.failure (.broken "gone")), ⟨[0xA9], some 1, some ⟨0, "gone"⟩⟩) ∧
      Outcome [0x31, 0x20, 0x31, 10] (some ⟨4, "gone"⟩) (.fault (.malformed (.blank 1))) 4 ∧
      readFrom ⟨[0x31, 0x20, 0x31, 10], some 1, some ⟨4, "gone"⟩⟩ =
        (.fault (.malformed (.blank 1)), ⟨[], some 1, some ⟨0, "gone"⟩⟩) := by
  have inside : Outcome [0x31, 0xC3, 0xA9] (some ⟨2, "gone"⟩)
      (.fault (.failure (.broken "gone"))) 2 := .broken rfl (by decide) (by decide)
  have first : FirstLine [0x31, 0x20, 0x31, 10] [0x31, 0x20, 0x31, 10] [] :=
    @FirstLine.ended [0x31, 0x20, 0x31] [] (by decide)
  have behind : Outcome [0x31, 0x20, 0x31, 10] (some ⟨4, "gone"⟩)
      (.fault (.malformed (.blank 1))) 4 :=
    .reached first (by decide)
      (@LineOutcome.malformed _ _ _ ['1', ' ', '1', '\n'] _ (by decide) rfl rfl)
  have ⟨_, read_inside⟩ := (readFrom_outcome _ _).2 _ _ inside
  have ⟨_, read_behind⟩ := (readFrom_outcome _ _).2 _ _ behind
  exact ⟨inside, read_inside (some 1) (by decide), behind, read_behind (some 1) (by decide)⟩

end Poly

end SparsePoly
