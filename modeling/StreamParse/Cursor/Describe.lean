import StreamParse.Store
import StreamParse.Text.Quoted

/-!
# Cursors in diagnostics

A cursor is shown with its position and with the input at hand after it.
-/

namespace StreamParse.Cursor

def describe (store : Store) (cursor : Cursor) : String :=
  let buffered :=
    match cursor.anchor with
    | none => "None"
    | some anchor => Text.applied "Some" (Text.quoteInput (store.atHand anchor))
  Text.record "State" [("position", cursor.position.describe), ("buffered", buffered)]

end StreamParse.Cursor
