import Mathlib
import SymbolicAlgebra.Failure.Basic
import SymbolicAlgebra.Text.Blank

/-!
# Where failures point

A span points into a text if it starts and ends between two of its characters, or at an end of the text. The
smallest span that covers several such spans is one of them too, and so is a span of a part of the text, moved
by the length of what stands before that part.
-/

namespace SymbolicAlgebra

namespace Text

variable {text more part : List Char} {offset : Nat}

/-- A character of the text starts at the offset, or the text ends there. -/
def IsBoundary (text : List Char) (offset : Nat) : Prop :=
  ∃ before after, text = before ++ after ∧ byteLength before = offset

/-- Where one part of a text ends and the next one starts there is a boundary. -/
theorem isBoundary_append (before after : List Char) : IsBoundary (before ++ after) (byteLength before) :=
  ⟨before, after, rfl, rfl⟩

/-- A text ends at a boundary. -/
theorem isBoundary_end (text : List Char) : IsBoundary text (byteLength text) :=
  ⟨text, [], (List.append_nil text).symm, rfl⟩

/-- No boundary is behind the end of the text. -/
theorem IsBoundary.le (h : IsBoundary text offset) : offset ≤ byteLength text := by
  obtain ⟨before, after, rfl, rfl⟩ := h
  rw [byteLength_append]
  exact Nat.le_add_right _ _

/-- The boundaries of a text are boundaries of every longer one. -/
theorem IsBoundary.append_right (h : IsBoundary text offset) (more : List Char) :
    IsBoundary (text ++ more) offset := by
  obtain ⟨before, after, rfl, hoffset⟩ := h
  exact ⟨before, after ++ more, List.append_assoc _ _ _, hoffset⟩

namespace Span

variable {s t : Span}

/-- The span is a range of the text from one of its boundaries to another one. -/
structure Within (s : Span) (text : List Char) : Prop where
  ordered : s.start ≤ s.stop
  bounded : s.stop ≤ byteLength text
  start : IsBoundary text s.start
  stop : IsBoundary text s.stop

/-- The span covers the given characters of the text. -/
def Selects (s : Span) (text part : List Char) : Prop :=
  ∃ before after, text = before ++ part ++ after ∧
    s = ⟨byteLength before, byteLength before + byteLength part⟩

/-- What lies between two boundaries is in the text. -/
theorem within_of_isBoundary (h : s.start ≤ s.stop) (hstart : IsBoundary text s.start)
    (hstop : IsBoundary text s.stop) : s.Within text := ⟨h, hstop.le, hstart, hstop⟩

/-- The empty span at a boundary is in the text. -/
theorem within_point (h : IsBoundary text offset) : (point offset).Within text :=
  within_of_isBoundary (Nat.le_refl _) h h

/-- A span that covers characters of a text is in it. -/
theorem Selects.within (h : s.Selects text part) : s.Within text := by
  obtain ⟨before, after, rfl, rfl⟩ := h
  refine within_of_isBoundary (Nat.le_add_right _ _) ?_ ?_
  · rw [List.append_assoc]
    exact isBoundary_append _ _
  · have hstop := isBoundary_append (before ++ part) after
    rwa [byteLength_append] at hstop

/-- A span in a text is in every longer one. -/
theorem Within.append_right (h : s.Within text) (more : List Char) : s.Within (text ++ more) :=
  within_of_isBoundary h.ordered (h.start.append_right more) (h.stop.append_right more)

/-- A span covers the same characters of every longer text. -/
theorem Selects.append_right (h : s.Selects text part) (more : List Char) :
    s.Selects (text ++ more) part := by
  obtain ⟨before, after, rfl, hs⟩ := h
  exact ⟨before, after ++ more, List.append_assoc _ _ _, hs⟩

/-- The smallest span that covers two spans in a text is in it. -/
theorem Within.union (hs : s.Within text) (ht : t.Within text) : (s.union t).Within text :=
  within_of_isBoundary ((Nat.min_le_left _ _).trans (hs.ordered.trans (Nat.le_max_left _ _)))
    (min_rec' (IsBoundary text) hs.start ht.start) (max_rec' (IsBoundary text) hs.stop ht.stop)

/-- The smallest span that covers all of some spans in a text is in it. -/
theorem within_cover {home : Span} {spans : List Span} (hhome : home.Within text)
    (hspans : ∀ s ∈ spans, s.Within text) : (cover home spans).Within text := by
  have hfilled : ∀ s ∈ spans.filter (!·.isEmpty), s.Within text := fun s hs =>
    hspans s (List.mem_of_mem_filter hs)
  rw [cover]
  split
  · exact hhome
  · rename_i first rest hsome
    rw [hsome, List.forall_mem_cons] at hfilled
    exact List.foldlRecOn (motive := (Within · text)) rest Span.union hfilled.1
      fun s hs t ht => hs.union (hfilled.2 t ht)

end Span

/-- A text is what its blanks at both ends leave between them. -/
theorem exists_trim (cs : List Char) : ∃ lead trail, cs = lead ++ trim cs ++ trail ∧
    byteLength cs - byteLength (trimStart cs) = byteLength lead := by
  refine ⟨cs.takeWhile isBlank, ((trimStart cs).reverse.takeWhile isBlank).reverse, ?_, ?_⟩
  · have hback : trim cs ++ ((trimStart cs).reverse.takeWhile isBlank).reverse = trimStart cs := by
      rw [trim, trimEnd, ← List.reverse_append, List.takeWhile_append_dropWhile, List.reverse_reverse]
    rw [List.append_assoc, hback, trimStart, List.takeWhile_append_dropWhile]
  · have hlength : byteLength cs = byteLength (cs.takeWhile isBlank) + byteLength (trimStart cs) := by
      rw [← byteLength_append, trimStart, List.takeWhile_append_dropWhile]
    omega

end Text

namespace Failure

/-- Every region that the failure blames is in the text. -/
def Within (f : Failure) (text : List Char) : Prop := ∀ s ∈ f.spans, s.Within text

/-- A failure that blames a region of a text is in it. -/
theorem within_located {s : Text.Span} {text : List Char} (h : s.Within text) (fault : Fault) :
    (located s fault).Within text := List.forall_mem_singleton.mpr h

/-- A failure that blames nothing is in every text. -/
theorem within_detached (fault : Fault) (text : List Char) : (detached fault).Within text := nofun

/-- The operation gives what has the first property, or it fails with a failure that has the second one. -/
def Settles {β : Type} (x : Except Failure β) (p : β → Prop) (q : Failure → Prop) : Prop :=
  match x with
  | .ok b => p b
  | .error f => q f

/-- What an operation gives or fails with has every property that follows from those that it has. -/
theorem Settles.imp {β : Type} {x : Except Failure β} {p p' : β → Prop} {q q' : Failure → Prop}
    (h : Settles x p q) (hp : ∀ b, p b → p' b) (hq : ∀ f, q f → q' f) : Settles x p' q' := by
  cases x with
  | ok b => exact hp b h
  | error f => exact hq f h

/-- What an operation gives has the first property. -/
theorem Settles.of_ok {β : Type} {x : Except Failure β} {p : β → Prop} {q : Failure → Prop}
    (h : Settles x p q) {b : β} (hb : x = .ok b) : p b := by
  rwa [hb] at h

/-- What an operation fails with has the second property. -/
theorem Settles.of_error {β : Type} {x : Except Failure β} {p : β → Prop} {q : Failure → Prop}
    (h : Settles x p q) {f : Failure} (hf : x = .error f) : q f := by
  rwa [hf] at h

/-- Operations in a row give what the last of them does, or fail with a failure of one of them. -/
theorem Settles.bind {β γ : Type} {x : Except Failure β} {f : β → Except Failure γ} {p : β → Prop}
    {p' : γ → Prop} {q : Failure → Prop} (hx : Settles x p q) (hf : ∀ b, p b → Settles (f b) p' q) :
    Settles (x >>= f) p' q := by
  cases x with
  | ok b => exact hf b hx
  | error f => exact hx

/-- Operations on all members of a list fail with a failure of one of them. -/
theorem settles_mapM {β γ : Type} {f : β → Except Failure γ} {q : Failure → Prop} {bs : List β}
    (h : ∀ b ∈ bs, Settles (f b) (fun _ => True) q) : Settles (bs.mapM f) (fun _ => True) q := by
  induction bs with
  | nil => trivial
  | cons b bs ih =>
    rw [List.forall_mem_cons] at h
    rw [List.mapM_cons]
    exact h.1.bind fun c _ => (ih h.2).bind fun cs _ => trivial

end Failure

end SymbolicAlgebra
