import SchemaSpans.Proofs.Number.Decimal
import SchemaSpans.Proofs.Reader.Quoted

/-! The bytes of a written value. A list and an object have the same outline, a bracket
or brace around parts with commas between them, and the first byte of every value tells
of what kind it is. -/

namespace SchemaSpans

/-- Texts with commas between them. -/
def separated : List Input → Input
  | [] => []
  | w :: ws => w ++ ws.flatMap (Ascii.comma :: ·)

namespace Json

/-- The bytes of a value as it is written. -/
def bytes (v : Json) : Input :=
  Text.encode v.written

def memberBytes (m : String × Json) : Input :=
  quotedBytes m.1 ++ Ascii.colon :: bytes m.2

theorem bytes_render (v : Json) : Text.bytes v.render = v.bytes := by
  rw [render, Text.bytes_ofList]
  rfl

theorem bytes_string_append (s : String) (rest : Input) : (string s).bytes ++ rest =
    Ascii.quote :: (Text.encode (s.toList.flatMap escaped) ++ Ascii.quote :: rest) := by
  rw [bytes, written, ← quotedBytes, quotedBytes_eq, List.cons_append, List.append_assoc,
    List.singleton_append]

theorem encode_writtenItems (items : List Json) : Text.encode (writtenItems items) =
    items.flatMap (fun v => Ascii.comma :: v.bytes) ++ [Ascii.closeBracket] := by
  induction items with
  | nil => rfl
  | cons v rest ih =>
    rw [writtenItems, Text.encode_append, ih, List.flatMap_cons, List.append_assoc]
    rfl

theorem bytes_list (items : List Json) : (list items).bytes =
    Ascii.openBracket :: (separated (items.map bytes) ++ [Ascii.closeBracket]) := by
  cases items with
  | nil => rfl
  | cons v rest =>
    rw [bytes, written, List.cons_append, Text.encode_cons, Text.encode_append, encode_writtenItems,
      List.map_cons, separated, List.flatMap_map, List.append_assoc]
    rfl

theorem encode_writtenMembers (members : Members) : Text.encode (writtenMembers members) =
    members.flatMap (fun m => Ascii.comma :: memberBytes m) ++ [Ascii.closeBrace] := by
  induction members with
  | nil => rfl
  | cons m rest ih =>
    rw [writtenMembers, Text.encode_append, ih, List.flatMap_cons, List.append_assoc]
    simp only [memberBytes, List.cons_append, Text.encode_cons, Text.encode_append, List.append_assoc]
    rfl

theorem bytes_object (members : Members) : (object members).bytes =
    Ascii.openBrace :: (separated (members.map memberBytes) ++ [Ascii.closeBrace]) := by
  cases members with
  | nil => rfl
  | cons m rest =>
    rw [bytes, written, Text.encode_append, encode_writtenMembers, List.map_cons, separated,
      List.flatMap_map, memberBytes]
    simp only [List.cons_append, Text.encode_cons, Text.encode_append, List.append_assoc]
    rfl

end Json

end SchemaSpans
