/-!
# Spans

A span is a half-open run of positions `[start, start + len)` in the sequence a rule is matched
over: characters when text is split into tokens, tokens when a grammar runs over them.  Keeping a
length instead of an end makes every span well formed; `Span.ofBounds` turns reversed bounds into
the empty span at its first argument.
-/

namespace RuleScript

/-- The positions `start, start + 1, …, start + len - 1`. -/
structure Span where
  start : Nat
  len : Nat
  deriving DecidableEq, Inhabited

namespace Span

/-- The position just after the span. -/
def stop (s : Span) : Nat := s.start + s.len

/-- The empty span in front of position `pos`. -/
def empty (pos : Nat) : Span := ⟨pos, 0⟩

/-- The span from `start` up to, not including, `stop`. -/
def ofBounds (start stop : Nat) : Span := ⟨start, stop - start⟩

def isEmpty (s : Span) : Bool := s.len == 0

/-- Whether `pos` is one of the positions of the span. -/
def contains (s : Span) (pos : Nat) : Bool := s.start ≤ pos && pos < s.stop

/-- Whether `t` lies inside `s`; an empty `t` may sit on either border. -/
def includes (s t : Span) : Bool := s.start ≤ t.start && t.stop ≤ s.stop

/-- The smallest span that includes both. -/
def cover (s t : Span) : Span := ofBounds (min s.start t.start) (max s.stop t.stop)

/-- The positions the two spans share, if there are any. -/
def intersect? (s t : Span) : Option Span :=
  let start := max s.start t.start
  let stop := min s.stop t.stop
  if start < stop then some (ofBounds start stop) else none

/-- A span is shown by its two bounds, as in `3..7`. -/
def text (s : Span) : String := s!"{s.start}..{s.stop}"

theorem start_le_stop (s : Span) : s.start ≤ s.stop := Nat.le_add_right s.start s.len

@[simp] theorem stop_empty (pos : Nat) : (empty pos).stop = pos := rfl

theorem stop_ofBounds {start stop : Nat} (h : start ≤ stop) : (ofBounds start stop).stop = stop := by
  simp only [ofBounds, Span.stop]
  omega

theorem start_cover (s t : Span) : (s.cover t).start = min s.start t.start := rfl

theorem stop_cover (s t : Span) : (s.cover t).stop = max s.stop t.stop :=
  stop_ofBounds (by simp only [Span.stop]; omega)

/-- Spans that are moved by the same distance cover the same, moved by that distance. -/
theorem cover_add {s t s' t' : Span} {shift : Nat} (hs : s'.start = s.start + shift)
    (hs' : s'.len = s.len) (ht : t'.start = t.start + shift) (ht' : t'.len = t.len) :
    s'.cover t' = ⟨(s.cover t).start + shift, (s.cover t).len⟩ := by
  simp only [cover, ofBounds, stop, hs, hs', ht, ht', mk.injEq]
  omega

end Span

end RuleScript
