import Flowgraph.Flow.Drawing
import Flowgraph.Proofs.Flow.Sound

/-!
# Drawings can be read back

Every line of a drawing is complete and has no line end inside (`Drawing.IsLine`). A reader that
stops at the first quote without a backslash before it finds just the label of a node, and undoing
the escapes gives its text (`Drawing.readQuoted?_escape`).
-/

namespace Flowgraph

open List

namespace Drawing

/-! ### Labels -/

/-- Read a label up to its closing quote and undo the escapes: a backslash takes the next character
with it. The answer also holds what stands behind. -/
def readQuoted? : List Char → Option (List Char × List Char)
  | [] => none
  | '"' :: rest => some ([], rest)
  | '\\' :: 'n' :: rest => (readQuoted? rest).map (Prod.map ('\n' :: ·) id)
  | '\\' :: c :: rest => (readQuoted? rest).map (Prod.map (c :: ·) id)
  | c :: rest => (readQuoted? rest).map (Prod.map (c :: ·) id)

/-- Escaped characters are read back. -/
theorem readQuoted?_escapeChar (c : Char) (rest : List Char) :
    readQuoted? (escapeChar c ++ rest) = (readQuoted? rest).map (Prod.map (c :: ·) id) := by
  unfold escapeChar
  split
  case h_4 hquote hslash _ =>
    exact readQuoted?.eq_5 c rest hquote (fun _ h _ => hslash h) fun _ _ h _ => hslash h
  all_goals rfl

/-- An escaped text is read back whole: no quote inside closes it. -/
theorem readQuoted?_escape (text : String) (rest : List Char) :
    readQuoted? ((escape text).toList ++ '"' :: rest) = some (text.toList, rest) := by
  rw [escape, String.toList_ofList]
  induction text.toList with
  | nil => rfl
  | cons c text ih =>
    rw [flatMap_cons, append_assoc, readQuoted?_escapeChar, ih]
    rfl

/-- Escaping loses nothing. -/
theorem escape_injective : Function.Injective escape := by
  intro text other h
  have hread := readQuoted?_escape text []
  rw [h, readQuoted?_escape] at hread
  exact String.toList_inj.mp (congrArg Prod.fst (Option.some.inj hread)).symm

/-- Escaped texts stay on their line. -/
theorem newline_not_mem_escape (text : String) : '\n' ∉ (escape text).toList := by
  rw [escape, String.toList_ofList, mem_flatMap]
  rintro ⟨c, -, hc⟩
  unfold escapeChar at hc
  split at hc
  case h_4 hline => exact hline (mem_singleton.mp hc).symm
  all_goals exact absurd hc (by decide)

/-! ### Lines -/

/-- A text is one line: it ends in a line end and has no other. -/
def IsLine (text : String) : Prop :=
  ∃ line : String, text = line ++ "\n" ∧ '\n' ∉ line.toList

/-- Lines can be begun with more text. -/
theorem IsLine.append {front line : String} (hfront : '\n' ∉ front.toList) (hline : IsLine line) :
    IsLine (front ++ line) := by
  obtain ⟨line, rfl, hend⟩ := hline
  exact ⟨front ++ line, by rw [String.append_assoc], by simp [hfront, hend]⟩

/-- A text made of lines has as many line ends as lines. -/
theorem count_newline_join {lines : List String} (h : ∀ line ∈ lines, IsLine line) :
    (String.join lines).toList.count '\n' = lines.length := by
  induction lines with
  | nil => rfl
  | cons line lines ih =>
    obtain ⟨⟨text, rfl, htext⟩, hlines⟩ := forall_mem_cons.mp h
    have hcount := count_eq_zero.mpr htext
    rw [String.join_cons, String.toList_append, count_append, ih hlines]
    simp [hcount, Nat.add_comm]

/-- Node names stay on their line. -/
theorem newline_not_mem_render (id : NodeId) : '\n' ∉ id.render.toList := by
  rw [NodeId.render, String.toList_append, mem_append]
  rintro (h | h)
  · exact absurd h (by decide)
  · rw [Nat.toString_eq_ofList_toDigits, String.toList_ofList] at h
    exact absurd (Nat.isDigit_of_mem_toDigits (by decide) (by decide) h) (by decide)

/-- Nodes are drawn on one line. -/
theorem isLine_nodeLine (cfg : FlowGraph) (id : NodeId) : IsLine (nodeLine cfg id) := by
  refine IsLine.append ?_ ⟨"\"];", by decide, by decide⟩
  simp [newline_not_mem_render, newline_not_mem_escape]

/-- Edges are drawn on one line. -/
theorem isLine_edgeLine (edge : Edge) : IsLine (edgeLine edge) := by
  obtain ⟨source, target, label⟩ := edge
  refine IsLine.append ?_ ⟨";", by decide, by decide⟩
  rcases label with _ | _ | _ <;> simp [newline_not_mem_render]

end Drawing

namespace FlowGraph

open Drawing

/-- A drawing has three lines around those of the nodes and the edges, and all of them are complete.
Between the quotes of a node's line stands a text without line ends whose quotes are all escaped,
since the reader stops only at the closing one. With the escapes undone it is the text of the node.
-/
theorem draw_lines (cfg : FlowGraph) :
    let lines := "digraph nfa \x7b\n" :: "    node [shape=rectangle]\n" ::
      cfg.nodes.map (nodeLine cfg) ++ cfg.edges.map edgeLine ++ ["\x7d\n"]
    cfg.draw = String.join lines ∧ (∀ line ∈ lines, IsLine line) ∧
      cfg.draw.toList.count '\n' = 3 + cfg.nodes.length + cfg.edges.length ∧
      (∀ id ∈ cfg.nodes, ∃ node ∈ cfg.node? id, ∃ label : String,
        nodeLine cfg id = "    " ++ id.render ++ " [label=\"" ++ label ++ "\"];\n" ∧
          '\n' ∉ label.toList ∧
          readQuoted? (label.toList ++ "\"];\n".toList) =
            some (node.render.toList, "];\n".toList)) ∧
      Function.Injective escape := by
  intro lines
  have hdraw : cfg.draw = String.join lines := by
    have hhead : "digraph nfa \x7b\n    node [shape=rectangle]\n" =
        "digraph nfa \x7b\n" ++ "    node [shape=rectangle]\n" := by decide
    simp only [lines, cons_append, append_assoc, String.join_cons, String.join_append,
      String.join_nil, String.append_empty]
    unfold draw
    rw [hhead, String.append_assoc, String.append_assoc, String.append_assoc]
  have hlines : ∀ line ∈ lines, IsLine line := by
    intro line hline
    simp only [lines, mem_append, mem_cons, mem_map, not_mem_nil, or_false]
      at hline
    obtain ((rfl | rfl | ⟨id, -, rfl⟩) | ⟨edge, -, rfl⟩) | rfl := hline
    · exact ⟨"digraph nfa \x7b", by decide, by decide⟩
    · exact ⟨"    node [shape=rectangle]", by decide, by decide⟩
    · exact isLine_nodeLine cfg id
    · exact isLine_edgeLine edge
    · exact ⟨"\x7d", by decide, by decide⟩
  refine ⟨hdraw, hlines, ?_, fun id hid => ?_, escape_injective⟩
  · rw [hdraw, count_newline_join hlines]
    simp +arith [lines]
  · obtain ⟨node, hnode⟩ := exists_node (Graph.mem_nodes.mp hid)
    refine ⟨node, hnode, escape node.render, ?_, newline_not_mem_escape _, readQuoted?_escape _ _⟩
    rw [nodeLine, hnode]
    rfl

end FlowGraph

end Flowgraph
