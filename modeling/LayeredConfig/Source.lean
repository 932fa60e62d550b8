import LayeredConfig.Format
import LayeredConfig.Source.Conf
import LayeredConfig.Source.Document
import LayeredConfig.Source.Plain

/-! # Sources of settings

    A source is a text of some format together with the options it is read by, or a
    value that is there already. Processing a source applies it to a session.
-/

namespace LayeredConfig

/-- A source of settings. -/
inductive Source where
  | conf (content : List Char) (options : Options)
  | document (codec : Codec) (content : List Char) (options : Options)
  | plain (data : Value)
  deriving DecidableEq, Repr

namespace Source

/-- The source of a text in a format. -/
def ofFormat (format : Format) (content : List Char) (options : Options) : Source :=
  match format with
  | .conf => .conf content options
  | .json => .document .json content options
  | .yaml => .document .yaml content options
  | .plain => .plain (Plain.ofText content)

/-- The source of a text in the format with a name. -/
def ofFormatName? (name : String) (content : List Char) (options : Options) : Option Source :=
  (Format.ofName? name).map fun format => ofFormat format content options

/-- The name of the format of a source. -/
def formatName : Source → String
  | .conf _ _ => Format.conf.name
  | .document codec _ _ => codec.name
  | .plain _ => Format.plain.name

/-- Whether a source is well formed. -/
def isValid : Source → Bool
  | .conf content options => Conf.isValid options content
  | .document codec content _ => Document.isValid codec content
  | .plain _ => true

/-- Applies a source. -/
def process (files : Snapshot) (source : Source) (s : Session) : Except Failure Session :=
  match source with
  | .conf content options => Conf.process files options content s
  | .document codec content options => Document.process files codec options content s
  | .plain data => .ok (Plain.process data s)

end Source

end LayeredConfig
