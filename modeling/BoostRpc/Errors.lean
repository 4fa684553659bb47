import BoostRpc.Text

/-!
# Exceptions

The exception types of `errors.hpp` and `message.hpp` and those that the used libraries throw,
as far as a catch clause can tell them apart: `on_receive` catches `std::exception` and then
`boost::exception`, `invoke` catches `boost::exception` only.
-/

namespace BoostRpc

/-- `error_object`, with its reflected members. -/
structure ErrorObject where
  /-- `required<signed_int>` -/
  code : Option Int
  /-- `optional<std::string>` -/
  message : Option Text
  /-- `optional<std::string>` -/
  data : Option Text
  deriving DecidableEq

/-- The default-constructed `error_object`, as `error_object( int32_t c = 0 )` makes it. -/
def ErrorObject.new (code : Int) : ErrorObject := ⟨some code, none, none⟩

/-- What is left of a `std::string` behind `c_str`: a null byte ends it. -/
def cString (text : Text) : Text := text.takeWhile (· != 0)

/-- `error_object::what`. -/
def ErrorObject.what (e : ErrorObject) : Text :=
  match e.message with
  | some message => cString message
  | none => str "error object"

/-- The exceptions that derive from `std::exception`. -/
inductive StdException where
  | errorObject (e : ErrorObject)
  | jsonParseError
  | requiredFieldNotSet
  | outOfRange (what : Text)
  | badGet
  | badLexicalCast
  /-- Any other exception, such as one that a method handler throws. -/
  | user (what : Text)
  deriving DecidableEq

/-- `std::exception::what`. -/
def StdException.what : StdException → Text
  | .errorObject e => e.what
  | .jsonParseError => str "json_parse_error"
  | .requiredFieldNotSet => str "required field not set"
  | .outOfRange what => cString what
  | .badGet => str "boost::bad_get: failed value get using boost::get"
  | .badLexicalCast =>
      str "bad lexical cast: source type value could not be interpreted as target"
  | .user what => cString what

/-- A thrown exception, by the base classes that a catch clause can name. -/
inductive Exception where
  /-- It derives from `std::exception`, and from `boost::exception` where `derived` holds. -/
  | std (e : StdException) (derived : Bool)
  /-- It derives from `boost::exception` only; `boost::diagnostic_information` gives the text. -/
  | boost (diagnostic : Text)
  /-- It derives from neither. -/
  | foreign
  deriving DecidableEq

/-- An exception thrown by `BOOST_THROW_EXCEPTION` or by a boost library, which add
`boost::exception` as a base class. -/
def Exception.thrown (e : StdException) : Exception := .std e true

/-- Whether `catch ( const boost::exception& )` catches it. -/
def Exception.isBoost : Exception → Bool
  | .std _ derived => derived
  | .boost _ => true
  | .foreign => false

end BoostRpc
