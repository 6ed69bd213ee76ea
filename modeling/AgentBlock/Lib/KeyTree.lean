/-
AgentBlock/Lib/KeyTree.lean

Trees of keyed entries, and when their text tells them apart.

A node is written between an opening and a closing mark, its entries apart by a
separator, and each as a key, a mark and the entry's own text.  Keys are written
as they are: where none holds the mark that ends it, nor begins with the closing
one, and a leaf ends where it is seen to, the text of a tree is that of no other
(`render_inj`).
-/
import AgentBlock.Lib.Split

universe u

/-- A tree of keyed entries. -/
inductive KeyTree (σ : Type u) where
  | leaf (text : List σ)
  | node (entries : List (List σ × KeyTree σ))

namespace KeyTree

/-- The marks a node is written with. -/
structure Marks (σ : Type u) where
  opening : σ
  closing : σ
  sep : σ
  assign : σ
  sep_ne : sep ≠ closing
  assign_ne : assign ≠ closing

section

variable {σ : Type u} (m : Marks σ)

mutual

def render : KeyTree σ → List σ
  | leaf text => text
  | node entries => m.opening :: renderEntries entries

def renderEntries : List (List σ × KeyTree σ) → List σ
  | [] => [m.closing]
  | (key, t) :: entries => key ++ m.assign :: (render t ++ renderRest entries)

/-- The entries after one. -/
def renderRest : List (List σ × KeyTree σ) → List σ
  | [] => [m.closing]
  | (key, t) :: entries => m.sep :: (key ++ m.assign :: (render t ++ renderRest entries))

end

/-- A key that ends where its mark stands, and is no closing one. -/
def PlainKey (key : List σ) : Prop := m.assign ∉ key ∧ ∀ c ∈ key.head?, c ≠ m.closing

mutual

/-- The leaves are of these, and the keys plain. -/
def Plain (leaves : Set (List σ)) : KeyTree σ → Prop
  | leaf text => text ∈ leaves
  | node entries => PlainEntries leaves entries

def PlainEntries (leaves : Set (List σ)) : List (List σ × KeyTree σ) → Prop
  | [] => True
  | (key, t) :: entries => PlainKey m key ∧ Plain leaves t ∧ PlainEntries leaves entries

end

/-- A text that goes on with one of these, or is over. -/
def Stops (stop : Set σ) (rest : List σ) : Prop := ∀ c ∈ rest.head?, c ∈ stop

/-- Texts that end where they are seen to: no other goes on as they do. -/
structure Leaves (leaves : Set (List σ)) (stop : Set σ) : Prop where
  sep : m.sep ∈ stop
  closing : m.closing ∈ stop
  first : ∀ text ∈ leaves, ∃ c rest, text = c :: rest ∧ c ≠ m.opening
  apart : ∀ text ∈ leaves, ∀ text' ∈ leaves, ∀ rest rest', Stops stop rest → Stops stop rest' →
    text ++ rest = text' ++ rest' → text = text' ∧ rest = rest'

end

section

variable {σ : Type u} {m : Marks σ} {leaves : Set (List σ)} {stop : Set σ}

theorem stops_renderRest (h : Leaves m leaves stop) (entries : List (List σ × KeyTree σ))
    (rest : List σ) : Stops stop (renderRest m entries ++ rest) := by
  intro c hc
  rcases entries with - | ⟨⟨key, t⟩, entries⟩
  · cases hc
    exact h.closing
  · cases hc
    exact h.sep

theorem key_inj {key key' rest rest' : List σ} (hkey : PlainKey m key) (hkey' : PlainKey m key')
    (h : key ++ m.assign :: rest = key' ++ m.assign :: rest') : key = key' ∧ rest = rest' := by
  classical
  exact Split.append_inj_first hkey.1 hkey'.1 h

/-- No entry is written as a closing mark is. -/
theorem closing_ne_key {key rest rest' : List σ} (hkey : PlainKey m key) :
    m.closing :: rest ≠ key ++ m.assign :: rest' := by
  intro h
  rcases key with - | ⟨c, key⟩
  · exact m.assign_ne (List.cons.inj h).1.symm
  · exact hkey.2 c rfl (List.cons.inj h).1.symm

mutual

/-- **The text of a tree is that of no other**, whatever follows. -/
theorem render_inj (h : Leaves m leaves stop) : (t t' : KeyTree σ) → Plain m leaves t →
    Plain m leaves t' → (rest rest' : List σ) → Stops stop rest → Stops stop rest' →
    render m t ++ rest = render m t' ++ rest' → t = t' ∧ rest = rest'
  | leaf text, leaf text', ht, ht', rest, rest', hr, hr', heq => by
      obtain ⟨rfl, rfl⟩ := h.apart text ht text' ht' rest rest' hr hr' heq
      exact ⟨rfl, rfl⟩
  | leaf text, node entries', ht, _, rest, rest', _, _, heq => by
      obtain ⟨c, tail, rfl, hc⟩ := h.first text ht
      exact absurd (List.cons.inj heq).1 hc
  | node entries, leaf text', _, ht', rest, rest', _, _, heq => by
      obtain ⟨c, tail, rfl, hc⟩ := h.first text' ht'
      exact absurd (List.cons.inj heq).1.symm hc
  | node entries, node entries', ht, ht', rest, rest', hr, hr', heq => by
      obtain ⟨rfl, rfl⟩ := renderEntries_inj h entries entries' ht ht' rest rest' hr hr'
        (List.cons.inj heq).2
      exact ⟨rfl, rfl⟩

theorem renderEntries_inj (h : Leaves m leaves stop) :
    (entries entries' : List (List σ × KeyTree σ)) → PlainEntries m leaves entries →
    PlainEntries m leaves entries' → (rest rest' : List σ) → Stops stop rest → Stops stop rest' →
    renderEntries m entries ++ rest = renderEntries m entries' ++ rest' →
    entries = entries' ∧ rest = rest'
  | [], [], _, _, _, _, _, _, heq => ⟨rfl, (List.cons.inj heq).2⟩
  | [], (key', t') :: entries', _, ht', rest, rest', _, _, heq => by
      rw [renderEntries, renderEntries, List.append_assoc] at heq
      exact absurd heq (closing_ne_key ht'.1)
  | (key, t) :: entries, [], ht, _, rest, rest', _, _, heq => by
      rw [renderEntries, renderEntries, List.append_assoc] at heq
      exact absurd heq.symm (closing_ne_key ht.1)
  | (key, t) :: entries, (key', t') :: entries', ht, ht', rest, rest', hr, hr', heq => by
      simp only [renderEntries, List.append_assoc, List.cons_append] at heq
      obtain ⟨rfl, hrest⟩ := key_inj ht.1 ht'.1 heq
      obtain ⟨rfl, hmore⟩ := render_inj h t t' ht.2.1 ht'.2.1 _ _
        (stops_renderRest h entries rest) (stops_renderRest h entries' rest') hrest
      obtain ⟨rfl, rfl⟩ := renderRest_inj h entries entries' ht.2.2 ht'.2.2 rest rest' hr hr' hmore
      exact ⟨rfl, rfl⟩

theorem renderRest_inj (h : Leaves m leaves stop) :
    (entries entries' : List (List σ × KeyTree σ)) → PlainEntries m leaves entries →
    PlainEntries m leaves entries' → (rest rest' : List σ) → Stops stop rest → Stops stop rest' →
    renderRest m entries ++ rest = renderRest m entries' ++ rest' →
    entries = entries' ∧ rest = rest'
  | [], [], _, _, _, _, _, _, heq => ⟨rfl, (List.cons.inj heq).2⟩
  | [], (key', t') :: entries', _, _, _, _, _, _, heq =>
      absurd (List.cons.inj heq).1.symm m.sep_ne
  | (key, t) :: entries, [], _, _, _, _, _, _, heq => absurd (List.cons.inj heq).1 m.sep_ne
  | (key, t) :: entries, (key', t') :: entries', ht, ht', rest, rest', hr, hr', heq => by
      simp only [renderRest, List.append_assoc, List.cons_append] at heq
      obtain ⟨rfl, hrest⟩ := key_inj ht.1 ht'.1 (List.cons.inj heq).2
      obtain ⟨rfl, hmore⟩ := render_inj h t t' ht.2.1 ht'.2.1 _ _
        (stops_renderRest h entries rest) (stops_renderRest h entries' rest') hrest
      obtain ⟨rfl, rfl⟩ := renderRest_inj h entries entries' ht.2.2 ht'.2.2 rest rest' hr hr' hmore
      exact ⟨rfl, rfl⟩

end

end

end KeyTree
