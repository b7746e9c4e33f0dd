import SeaOfNodes.Graph.Dot

/-!
Labels stay inside their quotes.

A reader of drawings takes a quoted text character by character, a backslash together with the
character after it (`Dot.read`). Whatever the names in a graph are, it meets no quote and no end of
line of its own in an escaped text, the text ends between two characters, and undoing the escapes
gives the name back without its carriage returns (`Dot.escape_stays_quoted`).
-/

namespace SeaOfNodes

namespace Dot

/-- What a reader of quoted text meets. -/
inductive Glyph where
  | plain (c : Char)
  /-- A backslash and the character it takes with it. -/
  | escaped (c : Char)
  /-- A backslash at the end. -/
  | cut
deriving DecidableEq

def read : List Char → List Glyph
  | [] => []
  | c :: rest =>
    if c = '\\' then
      match rest with
      | [] => [.cut]
      | d :: rest => .escaped d :: read rest
    else .plain c :: read rest

/-- The character meant. -/
def Glyph.char? : Glyph → Option Char
  | plain c => some c
  | escaped c => some (if c = 'n' then '\n' else c)
  | cut => none

/-- A text with its escapes undone. -/
def unescape (s : String) : String := String.ofList ((read s.toList).filterMap Glyph.char?)

/-- How a character is met in an escaped text. -/
def glyph (c : Char) : Glyph :=
  if c = '\n' then .escaped 'n'
  else if c = '\\' ∨ c = '"' ∨ c = '<' ∨ c = '>' then .escaped c
  else .plain c

/-- The characters that have a glyph. -/
def visible (cs : List Char) : List Char := cs.filter (· ≠ '\r')

theorem read_escaped (c : Char) (rest : List Char) :
    read ('\\' :: c :: rest) = .escaped c :: read rest := by
  rw [read, if_pos rfl]

theorem read_plain {c : Char} (h : c ≠ '\\') (rest : List Char) :
    read (c :: rest) = .plain c :: read rest := by
  rw [read.eq_def]
  simp only [if_neg h]

/-- What stands for one character is read by itself, whatever follows. -/
theorem read_escapeChar (c : Char) (rest : List Char) :
    read (escapeChar c ++ rest) = (visible [c]).map glyph ++ read rest := by
  unfold escapeChar
  split
  next => exact read_escaped ..
  next => exact read_escaped ..
  next => exact read_escaped ..
  next => rfl
  next => exact read_escaped ..
  next => exact read_escaped ..
  next hslash hquote hline hreturn hless hgreater =>
    have hspecial : ¬(c = '\\' ∨ c = '"' ∨ c = '<' ∨ c = '>') := by
      rintro (h | h | h | h)
      · exact hslash h
      · exact hquote h
      · exact hless h
      · exact hgreater h
    have hglyph : glyph c = .plain c := by rw [glyph, if_neg hline, if_neg hspecial]
    have hvisible : visible [c] = [c] := List.filter_eq_self.mpr (by simpa using hreturn)
    rw [hvisible, List.map_singleton, hglyph]
    exact read_plain hslash rest

/-- An escaped text is read glyph by glyph, and the reader goes on behind it. -/
theorem read_escape (cs rest : List Char) :
    read (cs.flatMap escapeChar ++ rest) = (visible cs).map glyph ++ read rest := by
  induction cs with
  | nil => rfl
  | cons c cs ih =>
    have hsplit : visible (c :: cs) = visible [c] ++ visible cs :=
      List.filter_append [c] cs
    rw [List.flatMap_cons, List.append_assoc, read_escapeChar, ih, hsplit, List.map_append,
      List.append_assoc]

theorem glyph_ne_cut (c : Char) : glyph c ≠ .cut := by
  unfold glyph
  split
  · exact Glyph.noConfusion
  · split <;> exact Glyph.noConfusion

theorem glyph_eq_plain {c d : Char} (h : glyph c = .plain d) :
    c = d ∧ d ≠ '"' ∧ d ≠ '\n' := by
  unfold glyph at h
  split at h
  next => cases h
  next hline =>
    split at h
    next => cases h
    next hspecial =>
      cases h
      exact ⟨rfl, fun hd => hspecial (.inr (.inl hd)), hline⟩

theorem char?_glyph (c : Char) : (glyph c).char? = some c := by
  unfold glyph
  split
  next hline => rw [hline]; rfl
  next =>
    split
    next hspecial =>
      have hn : c ≠ 'n' := by
        rintro rfl
        revert hspecial
        decide
      simp [Glyph.char?, hn]
    next => rfl

/-- Read from the left, an escaped text shows no quote, end of line or carriage return of its own
and does not end inside an escape, so whatever follows it is read as if it stood alone, a closing
quote too. Undoing the escapes gives the text back without its carriage returns. -/
theorem escape_stays_quoted (s : String) :
    (∀ c, .plain c ∈ read (escape s).toList → c ≠ '"' ∧ c ≠ '\n' ∧ c ≠ '\r') ∧
      .cut ∉ read (escape s).toList ∧
      (∀ rest, read ((escape s).toList ++ rest) = read (escape s).toList ++ read rest) ∧
      unescape (escape s) = String.ofList (s.toList.filter (· ≠ '\r')) := by
  have hlist : (escape s).toList = s.toList.flatMap escapeChar := String.toList_ofList
  have hread : read (escape s).toList = (visible s.toList).map glyph := by
    have h := read_escape s.toList []
    rwa [List.append_nil, ← hlist, show read [] = [] from rfl, List.append_nil] at h
  refine ⟨fun c hc => ?_, fun hcut => ?_, fun rest => ?_, ?_⟩
  · rw [hread] at hc
    obtain ⟨d, hd, hglyph⟩ := List.mem_map.mp hc
    obtain ⟨rfl, hquote, hline⟩ := glyph_eq_plain hglyph
    exact ⟨hquote, hline, by simpa using (List.mem_filter.mp hd).2⟩
  · rw [hread] at hcut
    obtain ⟨d, -, hglyph⟩ := List.mem_map.mp hcut
    exact glyph_ne_cut d hglyph
  · rw [hread, hlist, read_escape]
  · rw [unescape, hread, List.filterMap_map]
    have hchar : Glyph.char? ∘ glyph = some := funext char?_glyph
    rw [hchar, List.filterMap_some]
    rfl

/-- A name that tries to end its label. -/
example :
    ['\\', '"', '\r', '\n', '<'].flatMap escapeChar =
        ['\\', '\\', '\\', '"', '\\', 'n', '\\', '<'] ∧
      read ['\\', '\\', '\\', '"', '\\', 'n', '\\', '<'] =
        [.escaped '\\', .escaped '"', .escaped 'n', .escaped '<'] := by decide

end Dot

end SeaOfNodes
