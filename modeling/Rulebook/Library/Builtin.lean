/-
The grammar of common terminal rules. It is known without a file, under a name of its own.
-/
import Rulebook.Text.Basic

namespace Rulebook.Library

def builtinName : Text := "org.eclipse.xtext.common.Terminals"

def builtinSource : Text := Text.join "\n" ([
  "",
  "/**",
  " * Default terminal rules shared by Xtext languages.",
  " */",
  "grammar org.eclipse.xtext.common.Terminals hidden(WS, ML_COMMENT, SL_COMMENT)",
  "",
  "import \"http://www.eclipse.org/emf/2002/Ecore\" as ecore",
  "",
  "/** Identifier. A leading ^ escapes a keyword. */",
  "terminal ID: '^'?('a'..'z'|'A'..'Z'|'_') ('a'..'z'|'A'..'Z'|'_'|'0'..'9')*;",
  "",
  "/** Unsigned decimal integer. */",
  "terminal INT returns ecore::EInt: ('0'..'9')+;",
  "",
  "/** Single or double quoted string with backslash escapes. */",
  "terminal STRING:",
  "    '\"' ( '\\\\' . | !('\\\\'|'\"') )* '\"' |",
  "    \"'\" ( '\\\\' . | !('\\\\'|\"'\") )* \"'\"",
  ";",
  "",
  "/** Block comment. */",
  "terminal ML_COMMENT: '/*' -> '*/';",
  "",
  "/** Line comment. */",
  "terminal SL_COMMENT: '//' !('\\n'|'\\r')* ('\\r'? '\\n')?;",
  "",
  "/** Whitespace. */",
  "terminal WS: (' '|'\\t'|'\\r'|'\\n')+;",
  "",
  "/** Any other character. */",
  "terminal ANY_OTHER: .;",
  ""].map Text.ofString)

end Rulebook.Library
