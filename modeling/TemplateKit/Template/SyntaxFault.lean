import TemplateKit.Template.Command
import TemplateKit.Template.Token

/-!
# What can be wrong with a template
-/

namespace TemplateKit

/-- What is wrong in a template. -/
inductive SyntaxFault where
  | missingEnd (text : Bytes)
  | unknownCommand (text : Bytes)
  | notAllowed (command : Command) (block : Block)
  | unterminated (block : Block)
  | badName (name : Bytes) (byte : UInt8)
  | badEscape (text : Bytes)
  | badContentType (text : Bytes)
  | missingEquals (directive text : Bytes)
  | missingVariable (directive text : Bytes)
  | missingOperand (directive text : Bytes)
  | missingRange (text : Bytes)
  | loopArguments (count : Nat) (text : Bytes)
  | assignmentWithoutEquals (text : Bytes)
  | defWithoutLeftParen (text : Bytes)
  | defWithoutRightParen (text : Bytes)
  | duplicateMacro (text : Bytes)
  | badParameter (text : Bytes) (byte : UInt8)
  | emptyParameter (text : Bytes)
  | callWithoutLeftParen (text : Bytes)
  | callWithoutRightParen (text : Bytes)
  | undefinedMacro (text : Bytes)
  | macroArguments (expected got : Nat) (name text : Bytes)
  | expression (fault : ExprFault)

namespace SyntaxFault

/-- The text of the fault, with the place it is at. -/
def message (place : Bytes) : SyntaxFault → Bytes
  | notAllowed command block =>
    command.word ++ " Command " ++ place ++ " not allowed in " ++ block.word
  | fault => place ++ " " ++ what fault
where
  what : SyntaxFault → Bytes
  | missingEnd text => "Missing end ?> at " ++ text
  | unknownCommand text => "Unknown command " ++ text
  | notAllowed _ _ => []
  | unterminated block => "Non-terminted " ++ block.word ++ " clause"
  | badName name byte => "Invalid character in var name " ++ name ++ ": " ++ [byte]
  | badEscape text => "Invalid argument for escape: " ++ text
  | badContentType text => "Invalid argument for content-type: " ++ text
  | missingEquals directive text =>
    "Missing = in " ++ directive ++ " directive: " ++ text
  | missingVariable directive text => "Missing " ++ directive ++ " var: " ++ text
  | missingOperand directive text =>
    "Missing operand in " ++ directive ++ " directive: " ++ text
  | missingRange text => "Missing range in loop directive: " ++ text
  | loopArguments count text =>
    "Incorrect number of arguments, expected 1, 2, or 3 got " ++ Numeral.ofNat count ++
      " in loop: " ++ text
  | assignmentWithoutEquals text => "Missing equals in set " ++ text
  | defWithoutLeftParen text => "Missing left paren in macro def " ++ text
  | defWithoutRightParen text => "Missing right paren in def " ++ text
  | duplicateMacro text => "Duplicate macro def for " ++ text
  | badParameter text byte => "Invalid character in def " ++ text ++ " argument: " ++ [byte]
  | emptyParameter text => "Missing argument name or extra comma in def " ++ text
  | callWithoutLeftParen text => "Missing left paren in call " ++ text
  | callWithoutRightParen text => "Missing right paren in call " ++ text
  | undefinedMacro text => "Undefined macro called: " ++ text
  | macroArguments expected got name text =>
    "Incorrect number of arguments, expected " ++ Numeral.ofNat expected ++ ", got " ++
      Numeral.ofNat got ++ " in call to macro " ++ name ++ ": " ++ text
  | expression fault => fault.message

end SyntaxFault

end TemplateKit
